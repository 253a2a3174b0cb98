import KernelCall.BindError

/-!
# The span of an error

An error report marks the variable at fault in the description of the call. The path of a variable
is looked for as a word: the characters beside it, if there are any, must not continue a path. The
search goes from left to right and does not look inside an occurrence that it has passed over.
-/

namespace KernelCall

/-- A range of a text, without its end. -/
structure Span where
  start : Nat
  stop : Nat
  deriving DecidableEq, Repr

/-- Whether a character continues a path. -/
def isPathChar (c : Char) : Bool :=
  c.isAlphanum || c == '_' || c == '.'

namespace Span

/-- Number of bytes of a text in UTF-8. -/
def byteLength (cs : List Char) : Nat :=
  (String.ofList cs).utf8ByteSize

/-- Whether a word may end or begin beside a character, or at the end of the text. -/
def isBoundary (c? : Option Char) : Bool :=
  !c?.any isPathChar

/-- The place of the first word `w` in a text that follows `before?` at a given place. The search
begins after `skip` characters. -/
def word? (w : List Char) (skip : Nat) (before? : Option Char) (start : Nat) :
    List Char → Option Nat
  | [] => none
  | c :: cs =>
    match skip with
    | skip + 1 => word? w skip (some c) (start + c.utf8Size) cs
    | 0 =>
      match w.isPrefixOf? (c :: cs) with
      | none => word? w 0 (some c) (start + c.utf8Size) cs
      | some rest =>
        if isBoundary before? && isBoundary rest.head? then some start
        else word? w (w.length - 1) (some c) (start + c.utf8Size) cs

/-- All of a text. -/
def whole (cs : List Char) : Span :=
  ⟨0, byteLength cs⟩

/-- The bytes of a text that a path marks: its first occurrence as a word. The empty path, and one
that does not occur, mark the whole text. -/
def ofPath (path text : List Char) : Span :=
  if path.isEmpty then whole text
  else
    match word? path 0 none 0 text with
    | some start => ⟨start, start + byteLength path⟩
    | none => whole text

end Span

/-- The part of a text at which an error points. -/
def BindError.span (e : BindError) (text : String) : Span :=
  Span.ofPath e.path.toList text.toList

end KernelCall
