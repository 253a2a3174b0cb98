import KernelCall.KernelType.Basic
import KernelCall.KernelType.Generic
import KernelCall.Text.Count

/-!
# Type layouts

A layout gives types to type names. It holds the structs and interfaces of a kernel module; the
names of numeric types, arrays and resources are built in. A name is read by the first of these
rules that applies:

* a registered type, the latest registered under the name;
* a registered interface;
* a name that ends in a closing bracket is an array, split at its last opening bracket;
* a name with arguments in angle brackets is a resource;
* any other name is numeric.

Once a rule applies the later ones are not tried.
-/

namespace KernelCall

open Text

/-- The types and interfaces of a kernel module. Later registrations stand in front. -/
structure Layout where
  types : List (String × KernelType) := []
  interfaces : List String := []

namespace Layout

/-- The layout of a module without any registration. -/
def empty : Layout := {}

/-- Registers a type under its own name, in place of any earlier one. -/
def register (layout : Layout) (t : KernelType) : Layout :=
  { layout with types := (t.name, t) :: layout.types }

def registerInterface (layout : Layout) (name : String) : Layout :=
  { layout with interfaces := name :: layout.interfaces }

/-- The layout every module starts from knows the interface of differentiable types. -/
def standard : Layout := empty.registerInterface "IDifferentiable"

/-- The registered type or interface of a given name. -/
def registered? (layout : Layout) (name : String) : Option KernelType :=
  match layout.types.find? (·.1 == name) with
  | some (_, t) => some t
  | none => if layout.interfaces.contains name then some (.interface name) else none

/-! ## Numeric names -/

/-- Reads a number of components, which is 1 to 4. -/
def componentCount? (cs : List Char) : Option Nat :=
  (readCount? cs).filter fun n ↦ 1 ≤ n && n ≤ 4

/-- Reads names such as `float`, `float3` and `float3x4`. -/
def numeric? (cs : List Char) : Option KernelType :=
  match Scalar.ofName? (String.ofList cs) with
  | some s => some (.scalar s)
  | none => do
    let s ← Scalar.ofName? (String.ofList (cs.takeWhile (!·.isDigit)))
    let sizes := cs.dropWhile (!·.isDigit)
    match sizes.dropWhile (· != 'x') with
    | [] => return .vector s (← componentCount? sizes)
    | _ :: cols =>
      let rows ← componentCount? (sizes.takeWhile (· != 'x'))
      return .matrix s rows (← componentCount? cols)

/-! ## Array names -/

/-- Splits a text at its last opening bracket. -/
def splitLastBracket? (cs : List Char) : Option (List Char × List Char) :=
  match cs.reverse.dropWhile (· != '[') with
  | [] => none
  | _ :: before => some (before.reverse, (cs.reverse.takeWhile (· != '[')).reverse)

theorem length_lt_of_splitLastBracket? {cs element size : List Char}
    (h : splitLastBracket? cs = some (element, size)) : element.length < cs.length := by
  unfold splitLastBracket? at h
  split at h
  · simp at h
  · next c before hb =>
    have hsuf := (List.dropWhile_suffix (· != '[') (l := cs.reverse)).length_le
    rw [hb] at hsuf
    simp only [Option.some.injEq, Prod.mk.injEq] at h
    obtain ⟨rfl, -⟩ := h
    simp only [List.length_cons, List.length_reverse] at hsuf ⊢
    omega

/-! ## Resource names -/

/-- What the base of a generic name says about a resource. -/
inductive ResourceBase where
  | buffer (writable : Bool)
  | texture (dims : Nat) (writable : Bool)

/-- Removes a given beginning. -/
def stripStart? : (start cs : List Char) → Option (List Char)
  | [], cs => some cs
  | _ :: _, [] => none
  | s :: start, c :: cs => if s = c then stripStart? start cs else none

/-- Reads the base of a resource name. -/
def resourceBase? (base : List Char) : Option ResourceBase :=
  let (writable, base) := match stripStart? "RW".toList base with
    | some rest => (true, rest)
    | none => (false, base)
  if base = "NDBuffer".toList then some (.buffer writable)
  else do
    let rest ← stripStart? "Texture".toList base
    if rest.getLast? = some 'D' then
      return .texture (← readCount? rest.dropLast) writable
    else none

/-! ## Look-up -/

/-- The type that a text names. -/
def read? (layout : Layout) (text : List Char) : Option KernelType :=
  let cs := trim text
  match layout.registered? (String.ofList cs) with
  | some t => some t
  | none =>
    if cs.getLast? = some ']' then
      match _h : splitLastBracket? cs.dropLast with
      | none => none
      | some (element, size) => do
        let n ← readCount? (trim size)
        return .array (← layout.read? element) n
    else
      match _h : KernelType.generic? cs with
      | none => numeric? cs
      | some (base, args) =>
        match resourceBase? base, args with
        | some (.buffer writable), [element, dims] => do
          return .buffer (← layout.read? element) (← readCount? (trim dims)) writable
        | some (.texture dims writable), [element] => do
          return .texture (← layout.read? element) dims writable
        | _, _ => none
termination_by text.length
decreasing_by
  all_goals have hle : cs.length ≤ text.length := length_trim_le text
  · have hlt := length_lt_of_splitLastBracket? _h
    simp only [List.length_dropLast] at hlt
    omega
  all_goals
    have hlt := KernelType.length_lt_of_mem_generic? _h element (by simp)
    omega

/-- The type that a name stands for. -/
def find? (layout : Layout) (name : String) : Option KernelType :=
  layout.read? name.toList

end Layout

end KernelCall
