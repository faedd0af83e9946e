import Yarilo.Library.Text

/-! # Paths

A path is read part by part: an empty part and a dot stand still, two dots go up, anything else goes
down. Above the root of the file system there is nothing to go up to. A path appended to a root stays
strictly below it, whatever the root, if and only if its parts never go above their start and end
below it.
-/

namespace Yarilo.Library

open List

namespace Path

/-- The parts of an absolute path, after one more part. -/
def enter (stack : List Bytes) (part : Bytes) : List Bytes :=
  if part = [] ∨ part = [46] then stack
  else if part = [46, 46] then stack.dropLast
  else stack ++ [part]

/-- Those of a relative path: going up from nothing is kept. -/
def enterRelative (stack : List Bytes) (part : Bytes) : List Bytes :=
  if part = [] ∨ part = [46] then stack
  else if part = [46, 46] ∧ stack ≠ [] ∧ stack.getLast? ≠ some [46, 46] then stack.dropLast
  else stack ++ [part]

def Absolute (path : Bytes) : Prop := path.head? = some 47

instance (path : Bytes) : Decidable (Absolute path) := inferInstanceAs (Decidable (path.head? = some 47))

/-- The directories an absolute path leads through. -/
def components (path : Bytes) : List Bytes := (path.splitOn 47).foldl enter []

def clean (path : Bytes) : Bytes :=
  if Absolute path then 47 :: [47].intercalate (components path)
  else
    let parts := (path.splitOn 47).foldl enterRelative []
    if parts = [] then [46] else [47].intercalate parts

/-- `filepath.Join` of two elements. -/
def join (root sub : Bytes) : Bytes :=
  if root = [] then if sub = [] then [] else clean sub
  else clean (root ++ 47 :: sub)

/-- The path leads through the root and further. -/
def StrictlyBelow (root path : Bytes) : Prop :=
  Absolute path ∧ components root <+: components path ∧ components path ≠ components root

instance (root path : Bytes) : Decidable (StrictlyBelow root path) :=
  inferInstanceAs (Decidable (_ ∧ _ ∧ _))

/-! ## The parts of a clean path -/

/-- A part that goes down. -/
structure Proper (part : Bytes) : Prop where
  noSlash : (47 : UInt8) ∉ part
  nonempty : part ≠ []
  notDot : part ≠ [46]
  notDots : part ≠ [46, 46]

variable {stack parts : List Bytes} {part path root sub : Bytes}

theorem enter_proper (proper : Proper part) : enter stack part = stack ++ [part] := by
  simp [enter, proper.nonempty, proper.notDot, proper.notDots]

theorem foldl_enter_proper (proper : ∀ part ∈ parts, Proper part) :
    parts.foldl enter stack = stack ++ parts := by
  induction parts generalizing stack with
  | nil => simp
  | cons part rest ih =>
    rw [foldl_cons, enter_proper (proper part (by simp)),
      ih fun part member => proper part (.tail _ member)]
    simp

theorem proper_enter (proper : ∀ p ∈ stack, Proper p) (noSlash : (47 : UInt8) ∉ part) :
    ∀ p ∈ enter stack part, Proper p := by
  unfold enter
  split
  · exact proper
  split
  · exact fun p member => proper p (mem_of_mem_dropLast member)
  rename_i still up
  simp only [not_or] at still
  exact forall_mem_concat proper ⟨noSlash, still.1, still.2, up⟩

theorem proper_foldl_enter (proper : ∀ p ∈ stack, Proper p)
    (noSlash : ∀ part ∈ parts, (47 : UInt8) ∉ part) : ∀ p ∈ parts.foldl enter stack, Proper p := by
  induction parts generalizing stack with
  | nil => exact proper
  | cons part rest ih =>
    exact ih (proper_enter proper (noSlash part (by simp)))
      fun part member => noSlash part (.tail _ member)

theorem proper_components (path : Bytes) : ∀ p ∈ components path, Proper p :=
  proper_foldl_enter (by simp) fun _ => notMem_of_mem_splitOn

theorem components_append (root sub : Bytes) :
    components (root ++ 47 :: sub) = (sub.splitOn 47).foldl enter (components root) := by
  rw [components, splitOn_append_cons, foldl_append]
  rfl

theorem components_clean (absolute : Absolute path) : components (clean path) = components path := by
  have proper := proper_components path
  rw [clean, if_pos absolute, ← nil_append (47 :: _), components_append]
  have start : components [] = [] := rfl
  rw [start]
  by_cases none : components path = []
  · rw [none]
    rfl
  · rw [splitOn_intercalate _ (fun p member => (proper p member).noSlash) none,
      foldl_enter_proper proper, nil_append]

theorem absolute_clean (absolute : Absolute path) : Absolute (clean path) := by
  rw [clean, if_pos absolute]
  rfl

/-- What a path joined to an absolute root leads through. -/
theorem components_join (absolute : Absolute root) (sub : Bytes) : Absolute (join root sub) ∧
      components (join root sub) = (sub.splitOn 47).foldl enter (components root) := by
  obtain ⟨rest, rfl⟩ : ∃ rest, root = 47 :: rest := by
    cases root with
    | nil => cases absolute
    | cons b rest => exact ⟨rest, by rw [Option.some.inj absolute]⟩
  have whole : Absolute (47 :: rest ++ 47 :: sub) := rfl
  rw [join, if_neg (by simp)]
  exact ⟨absolute_clean whole, by rw [components_clean whole, components_append]⟩

/-! ## Up and down -/

inductive Move where
  | stay
  | up
  | down
deriving DecidableEq

def move (part : Bytes) : Move :=
  if part = [] ∨ part = [46] then .stay else if part = [46, 46] then .up else .down

/-- How far below its start a walk ends, unless it goes above it. -/
def depth : ℕ → List Move → Option ℕ
  | d, [] => some d
  | d, .stay :: rest => depth d rest
  | d, .down :: rest => depth (d + 1) rest
  | 0, .up :: _ => none
  | d + 1, .up :: rest => depth d rest

/-- The walk never goes above its start and ends below it. -/
def Descends (moves : List Move) : Prop := ∃ d ∈ depth 0 moves, 0 < d

instance (moves : List Move) : Decidable (Descends moves) :=
  decidable_of_iff (∃ d ∈ (depth 0 moves).toList, 0 < d) (by simp [Descends])

theorem enter_of_move : enter stack part =
      match move part with
      | .stay => stack
      | .up => stack.dropLast
      | .down => stack ++ [part] := by
  unfold enter move
  split
  · rfl
  · split <;> rfl

/-- A walk that stays at or below its start leads through it. -/
theorem foldl_enter_of_depth {d e : ℕ} (ends : depth d (parts.map move) = some e) (base : List Bytes)
    {above : List Bytes} (length : above.length = d) :
    ∃ above', parts.foldl enter (base ++ above) = base ++ above' ∧ above'.length = e := by
  induction parts generalizing d above with
  | nil => exact ⟨above, rfl, length.trans (Option.some.inj ends)⟩
  | cons part rest ih =>
    rw [foldl_cons, enter_of_move]
    rw [map_cons] at ends
    cases kind : move part with
    | stay =>
      rw [kind] at ends
      exact ih (by simpa [depth] using ends) length
    | down =>
      rw [kind] at ends
      rw [append_assoc]
      exact ih (by simpa [depth] using ends) (by simp [length])
    | up =>
      rw [kind] at ends
      cases d with
      | zero => simp [depth] at ends
      | succ d =>
        have some : above ≠ [] := by
          rintro rfl
          simp at length
        rw [dropLast_append_of_ne_nil some]
        exact ih (by simpa [depth] using ends) (by simp [length])

theorem mem_foldl_enter {p : Bytes} (member : p ∈ parts.foldl enter stack) : p ∈ stack ∨ p ∈ parts := by
  induction parts generalizing stack with
  | nil => exact .inl member
  | cons part rest ih =>
    rcases ih member with old | new
    · rw [enter_of_move] at old
      cases kind : move part with
      | stay => exact .inl (by simpa [kind] using old)
      | up => exact .inl (mem_of_mem_dropLast (by simpa [kind] using old))
      | down =>
        simp only [kind, mem_append, mem_singleton] at old
        rcases old with before | here
        · exact .inl before
        · exact .inr (by simp [here])
    · exact .inr (.tail _ new)

/-- A walk that goes above its start leaves the directory it started in for good, if it does not name
it again. -/
theorem notMem_foldl_enter_of_depth {parts above : List Bytes} {root : Bytes}
    (ends : depth above.length (parts.map move) = none) (unnamed : root ∉ above ++ parts) :
    root ∉ parts.foldl enter (root :: above) := by
  induction parts generalizing above with
  | nil => simp [depth] at ends
  | cons part rest ih =>
    rw [foldl_cons, enter_of_move]
    rw [map_cons] at ends
    simp only [mem_append, mem_cons, not_or] at unnamed
    cases kind : move part with
    | stay =>
      rw [kind] at ends
      exact ih (by simpa [depth] using ends) (by simp [unnamed])
    | down =>
      rw [kind] at ends
      rw [cons_append]
      exact ih (by simpa [depth] using ends) (by simp [unnamed])
    | up =>
      rw [kind] at ends
      cases above with
      | nil =>
        intro member
        rcases mem_foldl_enter member with old | new
        · simp at old
        · exact unnamed.2.2 new
      | cons first above =>
        rw [dropLast_cons_of_ne_nil (by simp)]
        refine ih (by simpa [depth] using ends) ?_
        intro member
        rcases mem_append.mp member with old | new
        · exact unnamed.1 (mem_of_mem_dropLast old)
        · exact unnamed.2.2 new

theorem strictlyBelow_of_descends (descends : Descends ((sub.splitOn 47).map move))
    (absolute : Absolute root) : StrictlyBelow root (join root sub) := by
  obtain ⟨d, ends, positive⟩ := descends
  obtain ⟨whole, through⟩ := components_join absolute sub
  obtain ⟨above, walked, length⟩ := foldl_enter_of_depth ends (components root) length_nil
  rw [append_nil] at walked
  refine ⟨whole, ⟨above, by rw [through, walked]⟩, ?_⟩
  rw [through, walked]
  intro same
  have none := append_right_eq_self.mp same
  simp only [none, length_nil] at length
  omega

/-- A directory name that is none of the given parts. -/
def unnamed (parts : List Bytes) : Bytes := List.replicate (parts.flatten.length + 3) 97

theorem unnamed_notMem (parts : List Bytes) : unnamed parts ∉ parts := by
  intro member
  have bound := (sublist_flatten_of_mem member).length_le
  simp only [unnamed, length_replicate] at bound
  omega

theorem proper_unnamed (parts : List Bytes) : Proper (unnamed parts) := by
  have length : 3 ≤ (unnamed parts).length := by simp [unnamed]
  refine ⟨?_, ?_, ?_, ?_⟩
  · simp [unnamed]
  all_goals
    intro same
    simp [same] at length

/-- Below every root, or not below one. -/
theorem forall_strictlyBelow_iff : (∀ root, Absolute root → StrictlyBelow root (join root sub)) ↔
      Descends ((sub.splitOn 47).map move) := by
  refine ⟨fun below => ?_, fun descends root => strictlyBelow_of_descends descends⟩
  let parts := sub.splitOn 47
  have proper := proper_unnamed parts
  -- a root of one directory that the parts do not name
  have single : components (47 :: unnamed parts) = [unnamed parts] := by
    rw [← nil_append (47 :: _), components_append, splitOn_eq_singleton proper.noSlash]
    exact enter_proper proper
  have absolute : Absolute (47 :: unnamed parts) := rfl
  obtain ⟨-, through⟩ := components_join absolute sub
  obtain ⟨-, inside, further⟩ := below _ absolute
  rw [single] at through inside further
  cases ends : depth 0 (parts.map move) with
  | none =>
    have left : unnamed parts ∉ parts.foldl enter [unnamed parts] :=
      @notMem_foldl_enter_of_depth parts [] _ ends (unnamed_notMem parts)
    rw [through] at inside
    exact absurd (inside.subset (by simp)) left
  | some d =>
    refine ⟨d, ends, Nat.pos_of_ne_zero ?_⟩
    rintro rfl
    obtain ⟨above, walked, length⟩ := foldl_enter_of_depth ends [unnamed parts] length_nil
    rw [length_eq_zero_iff] at length
    refine further ?_
    rw [through]
    simpa [length] using walked

end Path

end Yarilo.Library
