/-!
# Kernel types

The types a kernel can name, as far as binding needs them: numeric types with their dimensions,
arrays, structs with their fields, resources that hold elements, and interfaces that stand for
whatever type is bound to them.

A type's name is computed from its structure. Only structs and interfaces carry a name of their
own, so two types are equal exactly when their names and structures are.
-/

namespace KernelCall

/-- The scalar types. -/
inductive Scalar where
  | bool
  | int
  | uint
  | half
  | float
  | double
  deriving DecidableEq, Repr, Inhabited

namespace Scalar

def name : Scalar → String
  | bool => "bool"
  | int => "int"
  | uint => "uint"
  | half => "half"
  | float => "float"
  | double => "double"

/-- Every scalar type. -/
def all : List Scalar := [bool, int, uint, half, float, double]

/-- The scalar type of a given name. -/
def ofName? (name : String) : Option Scalar := all.find? (·.name == name)

theorem ofName?_name (s : Scalar) : ofName? s.name = some s := by
  cases s <;> decide

/-- Derivatives are taken of floating point numbers only. -/
def isFloating : Scalar → Bool
  | half | float | double => true
  | bool | int | uint => false

end Scalar

/-- A type on the kernel's side. -/
inductive KernelType where
  | scalar (s : Scalar)
  | vector (s : Scalar) (size : Nat)
  | matrix (s : Scalar) (rows cols : Nat)
  | array (element : KernelType) (size : Nat)
  | struct (name : String) (fields : List (String × KernelType)) (differentiable : Bool)
  | buffer (element : KernelType) (dims : Nat) (writable : Bool)
  | texture (element : KernelType) (dims : Nat) (writable : Bool)
  | interface (name : String)
  deriving Repr, Inhabited

namespace KernelType

/-! ## Equality -/

mutual

private def same : KernelType → KernelType → Bool
  | scalar s, scalar s' => s == s'
  | vector s n, vector s' n' => s == s' && n == n'
  | matrix s r c, matrix s' r' c' => s == s' && r == r' && c == c'
  | array e n, array e' n' => same e e' && n == n'
  | struct name fs d, struct name' fs' d' => name == name' && sameFields fs fs' && d == d'
  | buffer e n w, buffer e' n' w' => same e e' && n == n' && w == w'
  | texture e n w, texture e' n' w' => same e e' && n == n' && w == w'
  | interface name, interface name' => name == name'
  | _, _ => false

private def sameFields : List (String × KernelType) → List (String × KernelType) → Bool
  | [], [] => true
  | (name, t) :: fs, (name', t') :: fs' => name == name' && same t t' && sameFields fs fs'
  | _, _ => false

end

mutual

private theorem eq_of_same : ∀ {a b : KernelType}, same a b → a = b
  | scalar _, b, h => by cases b <;> simp_all [same]
  | vector _ _, b, h => by cases b <;> simp_all [same]
  | matrix _ _ _, b, h => by cases b <;> simp_all [same]
  | array e _, b, h => by
    cases b <;> simp_all [same]
    exact eq_of_same h.1
  | struct _ fs _, b, h => by
    cases b <;> simp_all [same]
    exact eq_of_sameFields h.1.2
  | buffer e _ _, b, h => by
    cases b <;> simp_all [same]
    exact eq_of_same h.1.1
  | texture e _ _, b, h => by
    cases b <;> simp_all [same]
    exact eq_of_same h.1.1
  | interface _, b, h => by cases b <;> simp_all [same]

private theorem eq_of_sameFields : ∀ {a b : List (String × KernelType)}, sameFields a b → a = b
  | [], b, h => by cases b <;> simp_all [sameFields]
  | (name, t) :: fs, b, h => by
    cases b with
    | nil => simp [sameFields] at h
    | cons f fs' =>
      simp only [sameFields, Bool.and_eq_true, beq_iff_eq] at h
      rw [eq_of_sameFields h.2, h.1.1, eq_of_same h.1.2]

end

mutual

private theorem same_self : ∀ a : KernelType, same a a
  | scalar _ => by simp [same]
  | vector _ _ => by simp [same]
  | matrix _ _ _ => by simp [same]
  | array e _ => by simp [same, same_self e]
  | struct _ fs _ => by simp [same, sameFields_self fs]
  | buffer e _ _ => by simp [same, same_self e]
  | texture e _ _ => by simp [same, same_self e]
  | interface _ => by simp [same]

private theorem sameFields_self : ∀ fs : List (String × KernelType), sameFields fs fs
  | [] => by simp [sameFields]
  | (_, t) :: fs => by simp [sameFields, same_self t, sameFields_self fs]

end

instance : DecidableEq KernelType := fun a b ↦
  decidable_of_bool (same a b) ⟨eq_of_same, fun h ↦ h ▸ same_self a⟩

/-! ## Names -/

/-- Writable resources are marked in front. -/
def accessMark (writable : Bool) : String := if writable then "RW" else ""

/-- The name of a type in kernel code. -/
def name : KernelType → String
  | scalar s => s.name
  | vector s n => s.name ++ toString n
  | matrix s r c => s.name ++ toString r ++ "x" ++ toString c
  | array e n => e.name ++ "[" ++ toString n ++ "]"
  | struct name _ _ => name
  | buffer e n w => accessMark w ++ "NDBuffer<" ++ e.name ++ "," ++ toString n ++ ">"
  | texture e n w => accessMark w ++ "Texture" ++ toString n ++ "D<" ++ e.name ++ ">"
  | interface name => name

/-- The name of the type that holds derivatives of this one. -/
def differentialName (t : KernelType) : String := t.name ++ ".Differential"

/-! ## Structure -/

def isScalar : KernelType → Bool
  | scalar _ => true
  | _ => false

def isStruct : KernelType → Bool
  | struct .. => true
  | _ => false

def isInterface : KernelType → Bool
  | interface _ => true
  | _ => false

/-- Resources are opaque: they expose no element dimensions. -/
def isResource : KernelType → Bool
  | buffer .. | texture .. => true
  | _ => false

/-- Whether values of the type have derivatives. -/
def differentiable : KernelType → Bool
  | scalar s | vector s _ | matrix s _ _ => s.isFloating
  | array e _ | buffer e _ _ | texture e _ _ => e.differentiable
  | struct _ _ d => d
  | interface _ => false

/-- The extents of a value of the type, outermost first. -/
def shape : KernelType → List Nat
  | vector _ n => [n]
  | matrix _ r c => [r, c]
  | array e n => n :: e.shape
  | _ => []

/-- Number of dimensions of a value of the type. -/
def rank (t : KernelType) : Nat := t.shape.length

/-- Strips the outermost `count` dimensions. -/
def reduce? : KernelType → (count : Nat) → Option KernelType
  | t, 0 => some t
  | vector s _, 1 => some (scalar s)
  | matrix s _ c, 1 => some (vector s c)
  | matrix s _ _, 2 => some (scalar s)
  | array e _, n + 1 => e.reduce? n
  | _, _ => none

@[simp] theorem reduce?_zero (t : KernelType) : t.reduce? 0 = some t := by
  cases t <;> simp [reduce?]

/-- The fields of a struct; other types have none. -/
def fields : KernelType → List (String × KernelType)
  | struct _ fs _ => fs
  | _ => []

/-- The type of the first field of a given name. -/
def field? (t : KernelType) (name : String) : Option KernelType :=
  (t.fields.find? (·.1 == name)).map (·.2)

end KernelType

end KernelCall
