import Yarilo.FileIndex.Bodies
import Yarilo.FileIndex.Locked

/-! # Counters of a folder

The next UID and the highest modseq are numbers inside a content that no handle may lose. Both are
instances of the library's counter theory: the truth is a lower bound that every group moves by its
own step. The lemmas here say what the primitives and an append do to such a bound.
-/

namespace Yarilo.FileIndex

open Library MailIndex

theorem Rebuilt.mayFlush {s : Local} {b : Rebuild} {fs : FolderState} {room : ℕ} (rebuilt : Rebuilt s b fs)
    (mayFlush : s.fs.MayFlush room) : fs.MayFlush room :=
  mayFlush.congr rebuilt.lineage (congrArg (·.2.1) rebuilt.book)

/-- A number inside a content that replays follow and rewrites of the base keep. -/
structure Counted (value : Content → ℕ) (step : ℕ → Group → ℕ) : Prop where
  mono : ∀ group, Monotone (step · group)
  follows : ∀ {c c' groups}, replayGroups c groups = some c' → value c' = groups.foldl step (value c)
  essence : ∀ {c c' : Content}, c.essence = c'.essence → value c = value c'
  keywords : ∀ (c : Content) registry, value { c with keywords := registry } = value c
  floor : ∀ fs : FolderState, value fs.stampExpungeFloor.toContent = value fs.toContent
  registry : ∀ (fs : FolderState) registry,
    value (fs.persistKeywordRegistry registry).toContent = value fs.toContent

/-- The bound is nowhere lost. -/
abbrev bound (value : Content → ℕ) (step : ℕ → Group → ℕ) : Journal.Theory Content Group ℕ :=
  Journal.counter replayGroups value step

namespace Counted

variable {value : Content → ℕ} {step : ℕ → Group → ℕ} {s : Local} {others handles : List FolderState}
  {i cur : ℕ} {disk : Disk} {sys : Sys}

theorem lawful (counted : Counted value step) : (bound value step).Lawful :=
  Journal.counter_lawful counted.mono (fun _ => ⟨_, rfl⟩) counted.follows

theorem stable (counted : Counted value step) : Stable (bound value step) := by
  intro c c' g same rel
  show g ≤ value c'
  rw [← counted.essence same]
  exact rel

theorem adopts (counted : Counted value step) (c : Content) (registry : Registry) (g : ℕ)
    (core : (bound value step).Core c g) :
    (bound value step).Rel { c with keywords := registry } g := by
  show g ≤ value _
  rw [counted.keywords]
  exact core

theorem commit (locked : Locked (bound value step) s others cur) (fs : FolderState) (group : Group)
    (book : fs.book = s.fs.book) (raises : cur ≤ step cur group)
    (keeps : step cur group ≤ value fs.toContent) :
    Locked (bound value step) (.appendMutLog group { s with fs := fs }) others
      (step cur group) :=
  locked.appendMutLog fs book (fun _ _ => raises) keeps

/-- A group that leaves the bound, over a change in memory that keeps the number or raises it. -/
theorem commit_fixed (locked : Locked (bound value step) s others cur) (fs : FolderState) (group : Group)
    (book : fs.book = s.fs.book) (keeps : value s.fs.toContent ≤ value fs.toContent)
    (fixed : step cur group = cur) :
    Locked (bound value step) (.appendMutLog group { s with fs := fs }) others cur := by
  have rel : cur ≤ value s.fs.toContent := locked.rel
  have committed := commit locked fs group book fixed.ge (by rw [fixed]; exact rel.trans keeps)
  rwa [fixed] at committed

section

variable (counted : Counted value step)

include counted

theorem flush (locked : Locked (bound value step) s others cur) (fs : FolderState)
    (book : fs.book = s.fs.book) (mayFlush : fs.MayFlush 1) (keeps : cur ≤ value fs.toContent)
    (wholeNames : Bool) :
    Locked (bound value step) (.flush wholeNames { s with fs := fs }) others cur :=
  locked.flush counted.stable fs book mayFlush keeps (counted.adopts _ _ _ keeps)
    (fun _ log => locked.settled counted.lawful log)
    (fun _ other l log => locked.caughtUp counted.lawful other l log) wholeNames

theorem compact (locked : Locked (bound value step) s (handles.eraseIdx i) cur) (fs : FolderState)
    (book : fs.book = s.fs.book) (mayFlush : fs.MayFlush 1) (keeps : cur ≤ value fs.toContent)
    (wholeNames : Bool) :
    Tracked (bound value step) (Local.compact wholeNames { s with fs := fs }).disk
      (handles.set i (Local.compact wholeNames { s with fs := fs }).fs) cur := by
  have stamped : cur ≤ value fs.stampExpungeFloor.toContent := by rw [counted.floor]; exact keeps
  exact locked.compact counted.lawful counted.stable fs book mayFlush stamped
    (counted.adopts _ _ _ stamped) (Nat.le_refl _)
    (fun _ other l log => locked.caughtUp counted.lawful other l log) wholeNames

theorem upkeep {op : Op} {result : Result} (locked : Locked (bound value step) s others cur)
    (upkeep : Upkeep op s result) (mayFlush : op.rewritesBase = true → s.fs.MayFlush 2)
    (keeps : ∀ change : File → File, s.fs.file.Upkept (change s.fs.file) →
      value (s.fs.mapFile change).toContent = value s.fs.toContent)
    (fixed : ∀ v, step cur [.headerUpdate 20 v] = cur) :
    result.1 = .ok .done ∧ Locked (bound value step) result.2 others cur := by
  refine ⟨by cases upkeep <;> rfl, ?_⟩
  cases upkeep with
  | idle => exact locked
  | mark change v upkept =>
    exact commit_fixed locked (s.fs.mapFile change) _ upkept.book (keeps change upkept).ge (fixed v)
  | rewrite change wholeNames upkept rewrites =>
    exact counted.flush locked (s.fs.mapFile change) upkept.book
      ((mayFlush rewrites).one.congr upkept.lineage rfl) (locked.rel.trans_eq (keeps change upkept).symm) _

/-- A fresh open is as good as every other handle. -/
theorem step_open (tracked : Tracked (bound value step) sys.disk sys.handles cur) :
    Tracked (bound value step) (sys.step .openFolder).2.disk (sys.step .openFolder).2.handles cur :=
  (tracked.step_open counted.lawful rfl counted.adopts).1

theorem le_opened {disk' : Disk} {fs : FolderState}
    (tracked : Tracked (bound value step) disk handles cur) (opened : openFolder disk = (.ok fs, disk')) :
    cur ≤ value fs.toContent :=
  (openFolder_tracked counted.lawful rfl counted.adopts tracked opened).2.1

theorem locked (tracked : Tracked (bound value step) sys.disk sys.handles cur)
    (locked : sys.locked i = some s) : Locked (bound value step) s (sys.handles.eraseIdx i) cur :=
  (tracked.locked counted.lawful rfl (fun fs _ _ _ _ g core _ => counted.adopts fs.toContent _ g core)
    locked).2

end

section Append

/-- The group an append commits, and the handle that has applied it. -/
structure Appended (s : Local) (m : MessageMeta) (fs : FolderState) (r : Record) : Prop where
  uid : r.uid = m.uid
  modseq : r.modseq = if m.modSeq ≠ 0 then m.modSeq else (s.stampModSeq m).fs.highestModSeq
  nextUID : fs.file.header.nextUID = s.fs.file.header.nextUID
  highestModSeq : fs.highestModSeq = (s.stampModSeq m).fs.highestModSeq

/-- A registry that grows is written out; the bound does not notice. -/
theorem growRegistry (counted : Counted value step)
    (locked : Locked (bound value step) s others cur) (registry : Registry)
    (mayFlush : s.fs.keywords.length < registry.length → s.fs.MayFlush 2) :
    Locked (bound value step) (s.growRegistry registry) others cur := by
  have keeps : cur ≤ value (s.fs.persistKeywordRegistry registry).toContent := by
    rw [counted.registry]; exact locked.rel
  unfold Local.growRegistry
  dsimp only
  split
  · rename_i grew
    exact counted.flush locked (s.fs.persistKeywordRegistry registry) rfl
      ((mayFlush grew).one.congr rfl rfl) keeps false
  · exact locked.touch (s.fs.persistKeywordRegistry registry) rfl keeps

theorem growRegistry_frame (registry : Registry) (s : Local) :
    (s.growRegistry registry).fs.file.header.nextUID = s.fs.file.header.nextUID ∧
      (s.growRegistry registry).fs.highestModSeq = s.fs.highestModSeq ∧
      (s.fs.MayFlush 2 → (s.growRegistry registry).fs.MayFlush 1) := by
  unfold Local.growRegistry
  dsimp only
  split
  · refine ⟨rfl, rfl, fun mayFlush => ?_⟩
    exact flush_mayFlush (s := s.mapFs (·.persistKeywordRegistry registry)) (mayFlush.congr rfl rfl)
  · exact ⟨rfl, rfl, fun mayFlush => mayFlush.one.congr rfl rfl⟩

/-- Only an append that names keywords grows the registry. -/
theorem keywords_ne_nil_of_grew {registry registry' : Registry} {names : List Keyword}
    {bits : BitVec 32} (known : keywordsBitmaskFor registry names = some (bits, registry'))
    (grew : registry.length < registry'.length) : names ≠ [] := by
  rintro rfl
  cases known
  exact Nat.lt_irrefl _ grew

/-- An append moves the bound by its group, or fails and leaves it. -/
theorem commitAppend (counted : Counted value step)
    (locked : Locked (bound value step) s (handles.eraseIdx i) cur) (m : MessageMeta) (rotate : Bool)
    (mayFlush : rotate = true ∨ m.keywords ≠ [] → s.fs.MayFlush 2)
    (stamped : cur ≤ value (s.stampModSeq m).fs.toContent)
    (recorded : ∀ fs r, Appended s m fs r → cur ≤ step cur (Local.appendGroup (fs.addRecord m r) r) ∧
        step cur (Local.appendGroup (fs.addRecord m r) r) ≤ value (fs.addRecord m r).toContent) :
    (∃ e s', s.commitAppend m rotate = (.error e, s') ∧
        Tracked (bound value step) s'.disk (handles.set i s'.fs) cur) ∨
      ∃ fs r s', s.commitAppend m rotate = (.ok .done, s') ∧ Appended s m fs r ∧
        Tracked (bound value step) s'.disk (handles.set i s'.fs)
          (step cur (Local.appendGroup (fs.addRecord m r) r)) := by
  obtain ⟨_, stampedFs⟩ := s.stampModSeq_fs m
  have book : (s.stampModSeq m).fs.book = s.fs.book := congrArg (·.book) stampedFs
  have lockedStamped : Locked (bound value step) (s.stampModSeq m) (handles.eraseIdx i) cur :=
    locked.touch _ book stamped
  have mayFlush' : rotate = true ∨ m.keywords ≠ [] → (s.stampModSeq m).fs.MayFlush 2 := fun may =>
    (mayFlush may).congr (congrArg (·.file.ext.lineage) stampedFs) (congrArg (·.lineage) stampedFs)
  rcases s.commitAppend_cases m rotate with
    zero | full | ⟨bits, registry, modseq, r, known, stamp, rfl, outcome⟩
  · exact .inl ⟨_, s, zero, locked.tracked counted.lawful⟩
  · exact .inl ⟨_, _, full, lockedStamped.tracked counted.lawful⟩
  right
  set r := FolderState.recordFor m modseq bits with record
  have keywords : (s.stampModSeq m).fs.keywords = s.fs.keywords := congrArg (·.keywords) stampedFs
  have lockedGrown := counted.growRegistry lockedStamped registry fun grew =>
    mayFlush' (.inr (keywords_ne_nil_of_grew known (keywords ▸ grew)))
  obtain ⟨grownUID, grownModSeq, grownFlush⟩ := growRegistry_frame registry (s.stampModSeq m)
  set grown := (s.stampModSeq m).growRegistry registry with grownDef
  have appended : Appended s m grown.fs r := ⟨rfl, stamp,
    grownUID.trans (congrArg (·.file.header.nextUID) stampedFs), grownModSeq⟩
  obtain ⟨raises, keeps⟩ := recorded grown.fs r appended
  refine ⟨grown.fs, r, _, outcome, appended, ?_⟩
  have lockedLogged := lockedGrown.flushAppend m r (fun _ _ => raises) keeps
  cases rotate with
  | false => exact lockedLogged.tracked counted.lawful
  | true =>
    refine counted.compact lockedLogged _ rfl ?_ lockedLogged.rel false
    obtain ⟨file, lineage'⟩ := flushAppend_frame m r grown
    exact (grownFlush (mayFlush' (.inl rfl))).congr file lineage'

end Append

end Counted

end Yarilo.FileIndex
