import Yarilo.Library.Text

/-! # Addresses with a port

A host and a port joined by a colon, a host with colons of its own in brackets, and the split at the
last colon. A host without brackets, and a port without colons and brackets, come back from the split.
-/

namespace Yarilo.Library

def joinHostPort (host port : Bytes) : Bytes :=
  if 58 ∈ host then 91 :: (host ++ 93 :: 58 :: port) else host ++ 58 :: port

/-- What stands before the last colon, and behind it. -/
def cutLastColon (s : Bytes) : Option (Bytes × Bytes) :=
  if 58 ∈ s then
    some ((s.reverse.dropWhile (· ≠ 58)).tail.reverse, (s.reverse.takeWhile (· ≠ 58)).reverse)
  else none

def splitHostPort (s : Bytes) : Option (Bytes × Bytes) :=
  match cutLastColon s with
  | none => none
  | some (before, port) =>
    if s.head? = some 91 then
      -- The first closing bracket has to stand just before the last colon.
      let host := s.tail.takeWhile (· ≠ 93)
      if before = 91 :: (host ++ [93]) ∧ 91 ∉ s.tail ∧ 93 ∉ port then some (host, port) else none
    else if 58 ∈ before ∨ 91 ∈ s ∨ 93 ∈ s then none
    else some (before, port)

/-- The host of an address, or the address itself where it has no port. -/
def hostOf (addr : Bytes) : Bytes := ((splitHostPort addr).map (·.1)).getD addr

theorem cutLastColon_append {before port : Bytes} (plain : 58 ∉ port) :
    cutLastColon (before ++ 58 :: port) = some (before, port) := by
  have reversed : (before ++ 58 :: port).reverse = port.reverse ++ 58 :: before.reverse := by
    rw [List.reverse_append, List.reverse_cons, List.append_assoc]
    rfl
  have passes : ∀ b ∈ port.reverse, decide (b ≠ 58) = true := by
    intro b member
    refine decide_eq_true fun same => plain ?_
    rwa [← same, ← List.mem_reverse]
  rw [cutLastColon, if_pos (by simp), reversed]
  rw [List.dropWhile_append_of_pos passes, List.takeWhile_append_of_pos passes]
  simp

/-- What is joined is split again. -/
theorem splitHostPort_joinHostPort {host port : Bytes} (bare : 91 ∉ host ∧ 93 ∉ host)
    (plain : 58 ∉ port ∧ 91 ∉ port ∧ 93 ∉ port) :
    splitHostPort (joinHostPort host port) = some (host, port) := by
  unfold joinHostPort
  split
  · have shape : 91 :: (host ++ 93 :: 58 :: port) = (91 :: (host ++ [93])) ++ 58 :: port := by simp
    have cut : cutLastColon (91 :: (host ++ 93 :: 58 :: port)) = some (91 :: (host ++ [93]), port) := by
      rw [shape]
      exact cutLastColon_append plain.1
    have inner : (host ++ 93 :: 58 :: port).takeWhile (fun b => decide (b ≠ 93)) = host := by
      rw [List.takeWhile_append_of_pos]
      · simp
      · intro b member
        exact decide_eq_true fun same => bare.2 (same ▸ member)
    simp only [splitHostPort, cut, List.head?_cons, List.tail_cons, if_true, inner]
    rw [if_pos]
    simp [bare.1, plain.2.1, plain.2.2]
  · next flat =>
    have cut : cutLastColon (host ++ 58 :: port) = some (host, port) := cutLastColon_append plain.1
    have opens : (host ++ 58 :: port).head? ≠ some 91 := by
      intro first
      have member := List.mem_of_mem_head? first
      simp [bare.1, plain.2.1] at member
    simp only [splitHostPort, cut]
    rw [if_neg opens, if_neg]
    simp [flat, bare.1, bare.2, plain.2.1, plain.2.2]

end Yarilo.Library
