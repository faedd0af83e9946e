import Yarilo.Acl.Store

/-! # What an emptied ACL leaves

An empty ACL is stored as an empty file, and an empty file is read as no ACL. So the folder takes the
rights of the folders above it, or the namespace's default, and the emptied ACL denies only where
these give nothing that the global ACL alone would not.
-/

namespace Yarilo.Acl

open Library

namespace Config

variable {cfg : Config} {s t : Store} {now later : ℕ} {folder f g path : Bytes} {access : Access}
  {fn : Option ACL → Except StoreError (Option ACL)}

/-! ## Reading one folder after another -/

/-- The answer depends on the files and the folder's own cache entry. -/
theorem get_congr (files : s.files = t.files) (cache : s.cache f = t.cache f) :
    (cfg.get now f s).1 = (cfg.get now f t).1 := by
  have load : cfg.loadLocked f s = cfg.loadLocked f t := by simp [loadLocked, files]
  simp only [get, getCached, revalidate, files, cache, load]
  repeat' split
  all_goals simp_all

/-- The file is unreadable, or the answer is cached with what identifies the file. -/
theorem revalidate_cases (cfg : Config) (now : ℕ) (f : Bytes) (s : Store) : (cfg.revalidate now f s).2 = s ∨
      ∃ ent, cfg.revalidate now f s = (.ok ent.acl, s.putCache f ent) ∧
        (s.files (cfg.path f) = none ∧ ent.acl = none ∨
          ∃ file, s.files (cfg.path f) = some file ∧ Matches ent file) := by
  unfold revalidate
  cases present : s.files (cfg.path f) with
  | none => exact .inr ⟨⟨none, false, 0, 0, now⟩, rfl, .inl ⟨rfl, rfl⟩⟩
  | some file =>
    cases cached : (s.cache f).filter (Matches · file) with
    | some ent =>
      have same := of_decide_eq_true (Option.filter_eq_some_iff.mp cached).2
      refine .inr ⟨{ ent with at_ := now }, ?_, .inr ⟨file, rfl, same⟩⟩
      simp [cached]
    | none =>
      cases loaded : cfg.loadLocked f s with
      | error err =>
        left
        simp [cached]
      | ok acl =>
        refine .inr ⟨⟨acl, true, file.mtime, file.content.length, now⟩, ?_, .inr ⟨file, rfl, ?_⟩⟩
        · simp [cached]
        · exact ⟨rfl, rfl, rfl⟩

theorem revalidate_later (cfg : Config) (now later : ℕ) :
    (cfg.revalidate now f s).1 = (cfg.revalidate later f s).1 := by
  unfold revalidate
  repeat' split
  all_goals rfl

/-- A read changes nothing, or it answers what it caches. -/
theorem get_cases (cfg : Config) (now : ℕ) (f : Bytes) (s : Store) :
    (cfg.get now f s).2 = s ∨ ∃ ent, cfg.get now f s = (.ok ent.acl, s.putCache f ent) := by
  unfold get getCached
  split
  · split
    · exact .inl rfl
    rcases revalidate_cases cfg now f s with same | ⟨ent, same, -⟩
    · exact .inl same
    · exact .inr ⟨ent, same⟩
  · exact .inl rfl

theorem get_files : (cfg.get now f s).2.files = s.files := by
  rcases get_cases cfg now f s with same | ⟨ent, same⟩ <;> rw [same]
  rfl

theorem get_cache_of_ne (other : g ≠ f) : (cfg.get now f s).2.cache g = s.cache g := by
  rcases get_cases cfg now f s with same | ⟨ent, same⟩ <;> rw [same]
  exact Function.update_of_ne other _ _

/-- A cached answer that identifies the file is given again. -/
theorem get_of_cached {ent : CacheEntry} (caching : 0 < cfg.ttl) (cached : s.cache f = some ent)
    (identifies : s.files (cfg.path f) = none ∧ ent.acl = none ∨
      ∃ file, s.files (cfg.path f) = some file ∧ Matches ent file) : (cfg.get now f s).1 = .ok ent.acl := by
  simp only [get, caching, if_true, getCached, cached]
  by_cases trusted : cfg.Trusted now ent
  · simp [Option.filter, trusted]
  rcases identifies with ⟨missing, nil⟩ | ⟨file, present, same⟩
  · simp [Option.filter, trusted, revalidate, missing, nil]
  · simp [Option.filter, trusted, revalidate, present, cached, same]

/-- Reading a folder does not change what a later read of it answers. -/
theorem get_again (ordered : now ≤ later) :
    (cfg.get later f (cfg.get now f s).2).1 = (cfg.get later f s).1 := by
  by_cases caching : 0 < cfg.ttl
  · cases trusted : (s.cache f).filter (cfg.Trusted now ·) with
    | some ent => simp [get, caching, getCached, trusted]
    | none =>
      have now_eq : cfg.get now f s = cfg.revalidate now f s := by
        simp [get, caching, getCached, trusted]
      have expired : (s.cache f).filter (cfg.Trusted later ·) = none := by
        rw [Option.filter_eq_none_iff] at trusted ⊢
        intro ent cached
        have old := trusted ent cached
        rw [decide_eq_true_eq] at old ⊢
        exact fun trusts => old (lt_of_le_of_lt (Nat.sub_le_sub_right ordered _) trusts)
      have later_eq : cfg.get later f s = cfg.revalidate later f s := by
        simp [get, caching, getCached, expired]
      rw [now_eq]
      rcases revalidate_cases cfg now f s with same | ⟨ent, same, identifies⟩
      · rw [same]
      · rw [later_eq, revalidate_later cfg later now, same]
        exact get_of_cached caching (Function.update_self ..) identifies
  · simp [get, caching]

theorem get_get (ordered : now ≤ later) :
    (cfg.get later g (cfg.get now f s).2).1 = (cfg.get later g s).1 := by
  by_cases same : g = f
  · subst same
    exact get_again ordered
  · exact get_congr get_files (get_cache_of_ne same)

/-- The first answer that is not the answer that there is no ACL. -/
def firstAnswer : List (Except StoreError (Option ACL)) → Except StoreError (Option ACL)
  | [] => .ok none
  | .ok none :: rest => firstAnswer rest
  | found :: _ => found

/-- What the store answers for each of the folders at its reading of the clock, in the state before
the walk. -/
def answers (cfg : Config) (clock : Clock) (reads : List (Bytes × ℕ)) (s : Store) :
    List (Except StoreError (Option ACL)) :=
  reads.map fun read => (cfg.get (clock.reading read.2) read.1 s).1

theorem answers_get (clock : Clock) {k i : ℕ} (ordered : k ≤ i) (folders : List Bytes) :
    cfg.answers clock (folders.zipIdx i) (cfg.get (clock.reading k) f s).2 =
      cfg.answers clock (folders.zipIdx i) s := by
  refine List.map_congr_left fun read member => ?_
  exact get_get (clock.monotone (ordered.trans (List.le_snd_of_mem_zipIdx member)))

theorem firstACL_eq (clock : Clock) (k : ℕ) (folders : List Bytes) (s : Store) :
    (cfg.firstACL clock k folders s).1 = firstAnswer (cfg.answers clock (folders.zipIdx k) s) := by
  induction folders generalizing k s with
  | nil => rfl
  | cons f rest ih =>
    have later : cfg.answers clock (rest.zipIdx (k + 1)) (cfg.get (clock.reading k) f s).2 = _ :=
      answers_get clock (Nat.le_succ k) rest
    rw [List.zipIdx_cons, answers, List.map_cons, ← answers, ← later]
    simp only [firstACL]
    rcases read : cfg.get (clock.reading k) f s with ⟨_ | _ | acl, after⟩
    · rfl
    · exact ih (k + 1) after
    · rfl

/-! ## The emptied folder -/

/-- The folder's file is empty, and no older ACL of it is cached. -/
structure Emptied (cfg : Config) (folder : Bytes) (s : Store) : Prop where
  file : ∃ file, s.files (cfg.path folder) = some file ∧ file.content = [] ∧ file.readable = true
  cached : ∀ ent, s.cache folder = some ent → ent.acl = none

namespace Emptied

variable (emptied : Emptied cfg folder s)

include emptied

theorem congr (file : t.files (cfg.path folder) = s.files (cfg.path folder))
    (cached : t.cache folder = s.cache folder ∨ t.cache folder = none) : Emptied cfg folder t where
  file := by
    rw [file]
    exact emptied.file
  cached ent found := by
    rcases cached with same | dropped
    · exact emptied.cached ent (same ▸ found)
    · rw [dropped] at found
      cases found

theorem load : cfg.loadLocked folder s = .ok none := by
  obtain ⟨file, present, empty, readable⟩ := emptied.file
  simp [loadLocked, present, empty, readable, parseACL_nil, Except.mapError]

/-- It is read as a folder without an ACL. -/
theorem get_eq (now : ℕ) : (cfg.get now folder s).1 = .ok none := by
  have cached : ∀ p : CacheEntry → Bool, ∀ ent, (s.cache folder).filter p = some ent →
      ent.acl = none := fun p ent found =>
    emptied.cached ent (Option.filter_eq_some_iff.mp found).1
  obtain ⟨file, present, -, -⟩ := emptied.file
  simp only [get, getCached, revalidate, present, emptied.load]
  repeat' split
  all_goals first | rfl | exact congrArg Except.ok (cached _ _ ‹_›)

theorem get (now : ℕ) (f : Bytes) : Emptied cfg folder (cfg.get now f s).2 := by
  by_cases own : f = folder
  · subst own
    rcases get_cases cfg now f s with same | ⟨ent, same⟩
    · rwa [same]
    have nil := emptied.get_eq now
    rw [same] at nil ⊢
    refine ⟨emptied.file, fun other found => ?_⟩
    obtain rfl : ent = other := by simpa [Store.putCache] using found
    exact Except.ok.inj nil
  · exact emptied.congr (by rw [get_files]) (.inl (get_cache_of_ne (.symm own)))

theorem firstACL (clock : Clock) (k : ℕ) (folders : List Bytes) :
    Emptied cfg folder (cfg.firstACL clock k folders s).2 := by
  induction folders generalizing k s with
  | nil => exact emptied
  | cons f rest ih =>
    have after := emptied.get (clock.reading k) f
    simp only [Config.firstACL]
    split
    · rename_i next read
      rw [read] at after
      exact ih after (k + 1)
    · exact after

end Emptied

/-! ## The folder while it is not written -/

/-- The call does not write the file at this path. -/
def Spares (cfg : Config) (path : Bytes) : Call → Prop
  | .get _ _ => True
  | .update _ f _ => cfg.path f ≠ path
  | .remove _ f => cfg.path f ≠ path
  | .rename _ old new => cfg.path old ≠ path ∧ cfg.path new ≠ path
  | .effectiveFor .. => True
  | .other p _ => p ≠ path

theorem update_files (other : cfg.path f ≠ path) :
    (cfg.update access f fn s).2.files path = s.files path := by
  simp only [update, updateLocked]
  repeat' split
  all_goals first
    | rfl
    | exact Function.update_of_ne (Ne.symm other) _ _

theorem update_cache : (cfg.update access f fn s).2.cache folder = s.cache folder ∨
      (cfg.update access f fn s).2.cache folder = none := by
  simp only [update, updateLocked]
  repeat' split
  all_goals first
    | exact .inl rfl
    | exact Store.invalidate_cache _ _ _

namespace Emptied

variable (emptied : Emptied cfg folder s)

include emptied

theorem invalidate (f : Bytes) : Emptied cfg folder (s.invalidate f) :=
  emptied.congr rfl (Store.invalidate_cache _ _ _)

theorem putFile (other : path ≠ cfg.path folder) (file : Option AclFile) :
    Emptied cfg folder (s.putFile path file) :=
  emptied.congr (Function.update_of_ne (Ne.symm other) _ _) (.inl rfl)

theorem remove (spares : cfg.path f ≠ cfg.path folder) : Emptied cfg folder (cfg.remove access f s).2 := by
  have removed := (emptied.putFile spares none).invalidate f
  unfold Config.remove
  repeat' split
  all_goals first
    | exact emptied
    | exact removed

theorem rename {old new : Bytes} (spares : cfg.path old ≠ cfg.path folder ∧ cfg.path new ≠ cfg.path folder) :
    Emptied cfg folder (cfg.rename access old new s).2 := by
  have missing := (emptied.invalidate old).invalidate new
  have moved := fun file => (((emptied.putFile spares.1 none).putFile spares.2 file).invalidate
    old).invalidate new
  simp only [Config.rename]
  repeat' split
  all_goals first
    | exact emptied
    | exact missing
    | exact moved _

theorem step {call : Call} (spares : cfg.Spares (cfg.path folder) call) :
    Emptied cfg folder (cfg.step s call) := by
  cases call with
  | get now f => exact emptied.get now f
  | update access f fn => exact emptied.congr (update_files spares) update_cache
  | remove access f => exact emptied.remove spares
  | rename access old new => exact emptied.rename spares
  | effectiveFor clock f user groups isOwner sep =>
    have walked := emptied.firstACL clock 0 (cfg.consulted f sep)
    simp only [Config.step, effectiveFor, localACLFor]
    repeat' split
    all_goals simp_all
  | other path file => exact emptied.putFile spares file

theorem run {calls : List Call} (spares : ∀ call ∈ calls, cfg.Spares (cfg.path folder) call) :
    Emptied cfg folder (cfg.run s calls) := by
  induction calls generalizing s with
  | nil => exact emptied
  | cons call rest ih =>
    exact ih (emptied.step (spares call (by simp))) fun other member =>
      spares other (.tail _ member)

end Emptied

theorem emptied_of_set (stored : (cfg.set access folder (some []) s).1 = .ok ()) :
    Emptied cfg folder (cfg.set access folder (some []) s).2 := by
  simp only [set, update, updateLocked] at stored ⊢
  repeat' split at stored
  all_goals simp_all [Store.putFile, Store.invalidate]
  all_goals exact ⟨⟨_, Function.update_self _ _ _, rfl, rfl⟩, by simp⟩

/-! ## Who may do what -/

end Config

/-- The local ACL grants the user nothing that counts besides the global one. -/
def ACL.AddsNothing (acl globalAcl : ACL) (user : Bytes) (groups : List Bytes) : Prop :=
  globalAcl.SpeaksFor user groups ∨ ∀ r, acl.Grants user groups r → globalAcl.Withholds user groups r ∨
      ¬globalAcl.Speaks user groups ∧ acl.Withholds user groups r

section Rights

variable {acl globalAcl : ACL} {user : Bytes} {groups : List Bytes}

theorem ACL.not_grants_nil (r : Right) : ¬ACL.Grants [] user groups r := by
  rintro ⟨e, member, -⟩
  cases member

theorem effectiveWithGlobal_eq_alone_iff : effectiveWithGlobal acl globalAcl user groups false =
        effectiveWithGlobal [] globalAcl user groups false ↔
      acl.AddsNothing globalAcl user groups := by
  by_cases granting : globalAcl.SpeaksFor user groups
  · have same : ∀ r, r ∈ effectiveWithGlobal acl globalAcl user groups false ↔
        r ∈ effectiveWithGlobal [] globalAcl user groups false := fun r => by
      rw [mem_effectiveWithGlobal_of_granting granting, mem_effectiveWithGlobal_of_granting granting]
    exact iff_of_true (Finset.ext same) (.inl granting)
  · by_cases speaks : globalAcl.Speaks user groups
    · simp [Finset.ext_iff, mem_effectiveWithGlobal_of_revoking speaks granting, ACL.AddsNothing, granting,
        speaks, ACL.not_grants_nil]
    have silent : ∀ r, ¬globalAcl.Withholds user groups r := by
      rintro r ⟨e, member, applies, -⟩
      exact speaks ⟨e, member, applies⟩
    simp [effectiveWithGlobal_of_silent speaks, Finset.ext_iff, ACL.mem_effective, ACL.AddsNothing,
      granting, speaks, silent, ACL.not_grants_nil]

theorem effectiveWithGlobal_nil : effectiveWithGlobal [] [] user groups false = ∅ := by
  rfl

end Rights

namespace Config

variable {cfg : Config} {s : Store} {folder : Bytes}

theorem effectiveFor_fst (clock : Clock) (user : Bytes) (groups : List Bytes) (sep : UInt8) :
    (cfg.effectiveFor clock folder user groups false sep s).1 =
      (if cfg.globalsOnly then .ok none else (cfg.localACLFor clock folder sep s).1).map fun acl =>
        effectiveWithGlobal (acl.getD []) (globalFor cfg.global folder) user groups false := by
  have nothing : ∀ acl : Option ACL, (if acl = none ∧ globalFor cfg.global folder = [] then ∅
      else effectiveWithGlobal (acl.getD []) (globalFor cfg.global folder) user groups false) =
      effectiveWithGlobal (acl.getD []) (globalFor cfg.global folder) user groups false := by
    intro acl
    split
    · rename_i none
      rw [none.1, none.2]
      exact effectiveWithGlobal_nil.symm
    · rfl
  simp only [effectiveFor, Bool.false_eq_true, if_false, nothing]
  cases cfg.globalsOnly with
  | true => rfl
  | false =>
    rcases cfg.localACLFor clock folder sep s with ⟨_ | acl, after⟩ <;> rfl

/-- The first ACL the store answers for the folders above and for the default. -/
def inherited (cfg : Config) (clock : Clock) (folder : Bytes) (sep : UInt8) (s : Store) :
    Except StoreError (Option ACL) :=
  firstAnswer
    (cfg.answers clock ((cfg.consulted folder sep).zipIdx.filter fun read => read.1 ≠ folder) s)

/-- An emptied folder is passed over. -/
theorem Emptied.localACLFor (emptied : Emptied cfg folder s) (clock : Clock) (sep : UInt8) :
    (cfg.localACLFor clock folder sep s).1 = cfg.inherited clock folder sep s := by
  have skip : ∀ reads : List (Bytes × ℕ), firstAnswer (cfg.answers clock reads s) =
      firstAnswer (cfg.answers clock (reads.filter fun read => read.1 ≠ folder) s) := by
    intro reads
    induction reads with
    | nil => rfl
    | cons read rest ih =>
      by_cases own : read.1 = folder
      · have nil : (cfg.get (clock.reading read.2) read.1 s).1 = .ok none := own ▸ emptied.get_eq _
        rw [List.filter_cons_of_neg (by simp [own]), ← ih, answers, List.map_cons, nil]
        rfl
      rw [List.filter_cons_of_pos (by simp [own])]
      simp only [answers, List.map_cons] at ih ⊢
      rcases (cfg.get (clock.reading read.2) read.1 s).1 with _ | _ | acl
      · rfl
      · exact ih
      · rfl
  rw [Config.localACLFor, firstACL_eq, inherited]
  exact skip _

/-- After an empty ACL was stored on a folder, and until its file is written again, a user has the
rights of the global ACL alone exactly if local ACLs do not count, or the first ACL that the store
answers for the folders above and the default can be read and adds nothing for the user. -/
theorem emptied_acl_denies_iff (cfg : Config) (s : Store) (access : Access) (folder : Bytes)
    (stored : (cfg.set access folder (some []) s).1 = .ok ()) (calls : List Call)
    (spares : ∀ call ∈ calls, cfg.Spares (cfg.path folder) call) (clock : Clock) (user : Bytes)
    (groups : List Bytes) (sep : UInt8) :
    let after := cfg.run (cfg.set access folder (some []) s).2 calls
    (cfg.effectiveFor clock folder user groups false sep after).1 =
        .ok (effectiveWithGlobal [] (globalFor cfg.global folder) user groups false) ↔
      cfg.globalsOnly = true ∨ ∃ acl, cfg.inherited clock folder sep after = .ok acl ∧
        (acl.getD []).AddsNothing (globalFor cfg.global folder) user groups := by
  intro after
  have emptied : Emptied cfg folder after := (emptied_of_set stored).run spares
  rw [effectiveFor_fst, emptied.localACLFor]
  cases only : cfg.globalsOnly with
  | true => simp [Except.map]
  | false =>
    cases cfg.inherited clock folder sep after with
    | error err => simp [Except.map]
    | ok acl => simp [Except.map, effectiveWithGlobal_eq_alone_iff]

/-! ## A folder under a shared one -/

/-- Files `/m/<folder>/a`, no global ACL, a cache of thirty. -/
def exampleConfig : Config where
  path f := [47, 109, 47] ++ f ++ [47, 97]
  mailboxesRoot := [47, 109]
  defaultsFromInbox := false
  globalsOnly := false
  global := []
  ttl := 30

/-- The file of `p` says `anyone lr`. -/
def exampleStore : Store where
  files path :=
    if path = [47, 109, 47, 112, 47, 97] then
      some ⟨writeACL [⟨.anyone, {.lookup, .read}, false⟩], 1, true⟩
    else none
  cache _ := none

def exampleClock : Clock := ⟨fun k => k, fun _ _ ordered => ordered⟩

def exampleAccess : Access := ⟨true, true, true, 2⟩

/-- On a folder without a shared one above it the emptied ACL denies. -/
theorem emptied_acl_denies_alone : (exampleConfig.effectiveFor exampleClock [113] [98] [] false 47
      (exampleConfig.run (exampleConfig.set exampleAccess [113] (some []) exampleStore).2
        [.get 5 [113], .remove exampleAccess [112]])).1 = .ok ∅ := by
  refine (emptied_acl_denies_iff exampleConfig exampleStore exampleAccess [113] rfl
    [.get 5 [113], .remove exampleAccess [112]] ?_ exampleClock [98] [] 47).mpr
      (.inr ⟨none, by decide +kernel, .inr fun r grants => absurd grants (ACL.not_grants_nil r)⟩)
  simp [Spares, exampleConfig]

/-- Under `p` it does not: everybody may look the folder up and read it, although its ACL was set to
be empty and no global ACL grants anything. -/
theorem emptied_acl_inherits :
    (exampleConfig.set exampleAccess [112, 47, 99] (some []) exampleStore).1 = .ok () ∧
      (exampleConfig.effectiveFor exampleClock [112, 47, 99] [98] [] false 47
        (exampleConfig.set exampleAccess [112, 47, 99] (some []) exampleStore).2).1 = .ok {.lookup, .read} ∧
      effectiveWithGlobal [] (globalFor exampleConfig.global [112, 47, 99]) [98] [] false = ∅ := by
  refine ⟨by decide +kernel, by decide +kernel, rfl⟩

end Config

end Yarilo.Acl
