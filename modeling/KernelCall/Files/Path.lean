/-!
# Paths

A path is a text whose parts are separated by slashes. Empty parts and single dots mean nothing,
except at its front, where an empty part makes it absolute and a dot is a part like any other; at
the front of a path that follows a directory they mean nothing either. The parent of a path keeps
what is left as it is written.
-/

namespace KernelCall.Path

/-- The parts of a path. -/
def parts : List Char → List (List Char)
  | [] => [[]]
  | c :: cs =>
    if c = '/' then [] :: parts cs
    else
      match parts cs with
      | [] => [[c]]
      | p :: ps => (c :: p) :: ps

/-- Drops what means nothing from the end of a path, given its parts in reverse. -/
def trim : List (List Char) → List (List Char)
  | p :: q :: ps => if p = [] ∨ p = ['.'] then trim (q :: ps) else p :: q :: ps
  | ps => ps

/-- Drops the last part of a path, given its parts in reverse. -/
def up? (ps : List (List Char)) : Option (List (List Char)) :=
  match trim ps with
  | [] => none
  | [[]] => none
  | _ :: ps => some (trim ps)

theorem length_trim_le (ps : List (List Char)) : (trim ps).length ≤ ps.length := by
  fun_induction trim ps with
  | case1 p q ps _ ih => exact Nat.le_succ_of_le ih
  | case2 | case3 => exact Nat.le_refl _

theorem length_of_up? {ps qs : List (List Char)} (h : up? ps = some qs) :
    qs.length < ps.length := by
  have hle := length_trim_le ps
  unfold up? at h
  split at h
  · simp at h
  · simp at h
  · next p rest _ hp =>
    obtain rfl := Option.some.inj h
    have := length_trim_le rest
    rw [hp, List.length_cons] at hle
    omega

/-- A path with given parts in reverse. A single empty part is the root. -/
def ofParts : List (List Char) → String
  | [[]] => "/"
  | ps => "/".intercalate (ps.reverse.map String.ofList)

/-- The directories above a path, given its parts in reverse, from the nearest on. -/
def above (ps : List (List Char)) : List String :=
  match _h : up? ps with
  | none => []
  | some qs => ofParts qs :: above qs
termination_by ps.length
decreasing_by exact length_of_up? ‹_›

/-- The directory of a path. The root and the empty path have none. -/
def parent? (path : String) : Option String :=
  (up? (parts path.toList).reverse).map ofParts

/-- A path and the directories above it, from the nearest on. -/
def upward (path : String) : List String :=
  path :: above (parts path.toList).reverse

/-- A path that follows a directory, without the parts at its front that mean nothing there. -/
def following (path : String) : String :=
  ofParts ((parts path.toList).dropWhile fun p ↦ p = [] ∨ p = ['.']).reverse

/-- The path of a name in a directory. -/
def join (directory name : String) : String :=
  if directory.isEmpty ∨ directory.toList.getLast? = some '/' then directory ++ name
  else directory ++ "/" ++ name

end KernelCall.Path
