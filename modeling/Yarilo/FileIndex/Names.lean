import Mathlib.Data.List.Nodup
import Mathlib.Data.List.Perm.Subperm
import Yarilo.FileIndex.Loops

/-! # The names a log brings

A keyword record carries its name, and a replay registers it. A writer registers every name it
journals, so a registry that holds the names of a log is large enough for any replay of that log,
also for one that starts from an empty registry.
-/

namespace Yarilo.FileIndex

open Library List

section Trim

/-- No member of `runes` starts the string. -/
def Clear (runes : List Bytes) (s : Bytes) : Prop := runes.find? (·.isPrefixOf s) = none

variable {runes : List Bytes} {s : Bytes}

theorem clear_iff : Clear runes s ↔ ∀ rune ∈ runes, ¬rune <+: s := by
  simp [Clear]

/-- A shorter string starts with no more runes. -/
theorem Clear.of_le {t : Bytes} (clear : Clear runes t) (le : s <+: t) : Clear runes s :=
  clear_iff.mpr fun rune member starts => clear_iff.mp clear rune member (starts.trans le)

theorem trimLeft_of_clear (clear : Clear runes s) (fuel : ℕ) : trimLeft runes fuel s = s := by
  cases fuel with
  | zero => rfl
  | succ fuel => rw [trimLeft, clear]

theorem trimLeft_clear (nonempty : ∀ rune ∈ runes, rune ≠ []) {fuel : ℕ} (enough : s.length ≤ fuel) :
    Clear runes (trimLeft runes fuel s) := by
  induction fuel generalizing s with
  | zero =>
    obtain rfl := length_eq_zero_iff.mp (Nat.le_zero.mp enough)
    refine clear_iff.mpr fun rune member starts => nonempty rune member ?_
    exact prefix_nil.mp starts
  | succ fuel ih =>
    unfold trimLeft
    split
    · rename_i rune found
      have member := mem_of_find?_eq_some found
      have positive := length_pos_iff.mpr (nonempty rune member)
      apply ih
      rw [length_drop]
      omega
    · rename_i clear
      exact clear

theorem trimLeft_suffix (runes : List Bytes) (fuel : ℕ) (s : Bytes) : trimLeft runes fuel s <:+ s := by
  induction fuel generalizing s with
  | zero => exact suffix_refl s
  | succ fuel ih =>
    unfold trimLeft
    split
    · exact (ih _).trans (drop_suffix _ _)
    · exact suffix_refl s

theorem spaceRunes_nonempty : ∀ rune ∈ spaceRunes, rune ≠ [] := by decide

/-- A trimmed name stays as it is. -/
theorem trimSpace_trimSpace (s : Bytes) : trimSpace (trimSpace s) = trimSpace s := by
  have backwards : ∀ rune ∈ spaceRunes.map reverse, rune ≠ [] := by decide
  set left := trimLeft spaceRunes s.length s with leftDef
  have clearLeft : Clear spaceRunes left := trimLeft_clear spaceRunes_nonempty le_rfl
  set right := trimLeft (spaceRunes.map reverse) left.length left.reverse with rightDef
  have clearRight : Clear (spaceRunes.map reverse) right :=
    trimLeft_clear backwards (by rw [length_reverse])
  have inside : right.reverse <+: left := by
    have behind : right <:+ left.reverse := trimLeft_suffix _ _ _
    rw [← reverse_suffix, reverse_reverse]
    exact behind
  have trimmed : trimSpace s = right.reverse := rfl
  rw [trimmed, trimSpace, trimLeft_of_clear (clearLeft.of_le inside), reverse_reverse,
    trimLeft_of_clear clearRight]

end Trim

/-- A registry as registration builds it: different trimmed names, one bit each. -/
structure Tidy (registry : Registry) : Prop where
  nodup : registry.Nodup
  length : registry.length ≤ keywordsMaxBits
  trimmed : ∀ name ∈ registry, trimSpace name = name ∧ name ≠ []

theorem Tidy.nil : Tidy [] := ⟨List.nodup_nil, by decide, by simp⟩

variable {registry registry' : Registry} {name : Keyword} {names : List Keyword} {bits : BitVec 32}
  {tx : TxRecord}

theorem Tidy.registered (tidy : Tidy registry) (member : name ∈ registry) : Registered registry name :=
  .inr (by rwa [(tidy.trimmed name member).1])

theorem Tidy.registerKeyword {bit : BitVec 32} (tidy : Tidy registry)
    (success : registerKeyword registry name = some (bit, registry')) : Tidy registry' := by
  obtain ⟨-, -, rfl | ⟨nonempty, new, room, rfl⟩⟩ := registerKeyword_eq_some_iff.mp success
  · exact tidy
  refine ⟨nodup_concat tidy.nodup new, ?_,
    forall_mem_concat tidy.trimmed ⟨trimSpace_trimSpace name, nonempty⟩⟩
  rw [length_append, length_singleton]
  omega

theorem Tidy.keywordsBitmaskFor (tidy : Tidy registry)
    (success : keywordsBitmaskFor registry names = some (bits, registry')) : Tidy registry' := by
  induction names generalizing registry bits with
  | nil =>
    cases success
    exact tidy
  | cons name names ih =>
    obtain ⟨bit, middle, rest, first, tail, -⟩ := keywordsBitmaskFor_cons_eq_some success
    exact ih (tidy.registerKeyword first) tail

/-- A registry that holds a name leaves room for it in every tidy part of itself. -/
theorem registerKeyword_within {part : Registry} (length : registry.length ≤ keywordsMaxBits)
    (tidy : Tidy part) (inside : part ⊆ registry) (known : Registered registry name) :
    ∃ bit part', registerKeyword part name = some (bit, part') ∧ Tidy part' ∧ part' ⊆ registry := by
  by_cases old : Registered part name
  · exact ⟨_, part, registerKeyword_eq_some_iff.mpr ⟨old, rfl, .inl rfl⟩, tidy, inside⟩
  obtain ⟨nonempty, new⟩ := not_or.mp old
  have inside' : part ++ [trimSpace name] ⊆ registry :=
    append_subset.mpr ⟨inside, by simpa using known.resolve_left nonempty⟩
  have larger := (List.Nodup.subperm (nodup_concat tidy.nodup new) inside').length_le
  rw [length_append, length_singleton] at larger
  have registered := registerKeyword_eq_some_iff.mpr
    ⟨.inr mem_concat_self, rfl, .inr ⟨nonempty, new, larger.trans length, rfl⟩⟩
  exact ⟨_, _, registered, tidy.registerKeyword registered, inside'⟩

/-- The name a record brings is in the registry. -/
def TxRecord.Known (registry : Registry) : TxRecord → Prop
  | .keywordUpdate _ name _ _ => Registered registry name
  | _ => True

theorem TxRecord.Known.mono (known : tx.Known registry) (extends_ : registry <+: registry') :
    tx.Known registry' := by
  cases tx with
  | keywordUpdate modify name uid1 uid2 => exact .mono known extends_
  | _ => trivial

/-- A replay of records whose names one registry holds is never refused. -/
theorem applyTxs_of_known (length : registry.length ≤ keywordsMaxBits) {s : Replay}
    (tidy : Tidy s.keywords) (inside : s.keywords ⊆ registry) {txs : List TxRecord}
    (known : ∀ tx ∈ txs, tx.Known registry) : (applyTxs s txs).2 = true := by
  induction txs generalizing s with
  | nil => rfl
  | cons tx txs ih =>
    have step := applyTx_keywords s tx
    have follow : ∃ s', applyTx s tx = some s' ∧ Tidy s'.keywords ∧ s'.keywords ⊆ registry := by
      have settles : ∃ part', keywordStep s.keywords tx = some part' ∧ Tidy part' ∧ part' ⊆ registry := by
        cases tx with
        | keywordUpdate modify name uid1 uid2 =>
          obtain ⟨bit, part', registered, tidy', inside'⟩ := registerKeyword_within length tidy inside
            (known _ (.head _))
          refine ⟨part', ?_, tidy', inside'⟩
          simp [keywordStep, keywordsBitmaskFor, registered]
        | _ => exact ⟨s.keywords, rfl, tidy, inside⟩
      obtain ⟨part', stepped, good⟩ := settles
      rw [stepped] at step
      obtain ⟨s', applied, rfl⟩ := Option.map_eq_some_iff.mp step
      exact ⟨s', applied, good⟩
    obtain ⟨s', applied, tidy', inside'⟩ := follow
    rw [applyTxs, applied]
    exact ih tidy' inside' fun tx member => known tx (.tail _ member)

section Writers

theorem Tidy.registered_of_bitmask (tidy : Tidy registry)
    (member : name ∈ keywordsFromBitmask registry bits) : Registered registry name := by
  rw [keywordsFromBitmask, mem_sortStrings, namesFrom_eq] at member
  obtain ⟨e, inside, rfl⟩ := mem_map.mp member
  exact tidy.registered (fst_mem_of_mem_zipIdx (mem_of_mem_filter inside))

/-- The names of a keyword change are those it had or wants. -/
theorem keywordLogRecords_known {uid : ℕ} {have_ want : List Keyword}
    (had : ∀ name ∈ have_, Registered registry name) (wants : ∀ name ∈ want, Registered registry name)
    (member : tx ∈ keywordLogRecords uid have_ want) : tx.Known registry := by
  unfold keywordLogRecords at member
  dsimp only at member
  split_ifs at member
  · cases member
  · obtain rfl := mem_singleton.mp member
    trivial
  rcases mem_append.mp member with added | removed
  · obtain ⟨name, listed, rfl⟩ := mem_map.mp added
    exact wants name (mem_of_mem_filter listed)
  · obtain ⟨name, listed, rfl⟩ := mem_map.mp removed
    exact had name (mem_of_mem_filter listed)

namespace Batch

/-- The batch's registry is tidy and holds the names it has logged. -/
structure Names (start : Registry) (b : Batch) : Prop where
  tidy : Tidy b.registry
  grew : start <+: b.registry
  known : ∀ tx ∈ b.keywordRecs, tx.Known b.registry

variable {start : Registry} {b : Batch}

theorem step_names (updates : List (ℕ × FlagsUpdate)) (r : Record) (names : b.Names start) :
    (b.step updates r).1.Names start := by
  unfold Batch.step
  split
  · exact ⟨names.tidy, names.grew, names.known⟩
  dsimp only
  split
  · exact ⟨names.tidy, names.grew, names.known⟩
  rename_i bits registry success
  obtain ⟨grew, wanted⟩ := keywordsBitmaskFor_spec success
  refine ⟨names.tidy.keywordsBitmaskFor success, names.grew.trans grew, fun tx member => ?_⟩
  rcases mem_append.mp member with old | new
  · exact (names.known tx old).mono grew
  · exact keywordLogRecords_known
      (fun name had => (names.tidy.registered_of_bitmask had).mono grew) wanted new

theorem loop_names (updates : List (ℕ × FlagsUpdate)) (records : List Record) (names : b.Names start) :
    (b.loop updates records).1.Names start :=
  loop_induction (P := fun b => b.Names start) (fun _ r names => step_names updates r names)
    (fun _ _ names => ⟨names.tidy, names.grew, names.known⟩) records names

end Batch

theorem Rebuild.loop_tidy {b : Rebuild} (metas : List MessageMeta) (tidy : Tidy b.registry) :
    Tidy (b.loop metas).1.registry := by
  refine loop_induction (P := fun b => Tidy b.registry) (fun b m b' _ stepped good => ?_) tidy
  unfold Rebuild.step at stepped
  split at stepped
  · cases stepped
    exact good
  · obtain ⟨_, success, rfl⟩ := Option.map_eq_some_iff.mp stepped
    exact good.keywordsBitmaskFor success

/-- The keyword names a caller hands to the operation. -/
def Op.keywordNames : Op → List Keyword
  | .appendMessage m _ | .allocateAndAppendNamed m _ _ => m.keywords
  | .writeFlags _ _ _ keywords => keywords
  | .updateFlagsMulti updates => updates.flatMap (·.2.keywords)
  | .resetFolder metas => metas.flatMap (·.keywords)
  | _ => []

/-- The names fit the 16-bit length a keyword record has for them. -/
def Op.NamesFit (op : Op) : Prop := ∀ name ∈ op.keywordNames, name.length < 2 ^ 16

end Writers

end Yarilo.FileIndex
