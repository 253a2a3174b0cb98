import KernelCall.Toml.Reader

/-!
# Quoted text

Strings of TOML: on one line or between threefold quotation marks, with escapes or literal. In a
text of several lines a newline after the opening marks is dropped, a backslash at the end of a
line removes the blanks up to the next text, and the closing marks may follow up to two marks that
are text.
-/

namespace KernelCall.Toml

open Reader

def hexValue? (c : Char) : Option Nat :=
  if '0' ≤ c ∧ c ≤ '9' then some (c.toNat - '0'.toNat)
  else if 'a' ≤ c ∧ c ≤ 'f' then some (c.toNat - 'a'.toNat + 10)
  else if 'A' ≤ c ∧ c ≤ 'F' then some (c.toNat - 'A'.toNat + 10)
  else none

/-- The character with a number in hexadecimal, if it is a Unicode scalar. -/
def scalar? (digits : List Char) : Option Char := do
  let n ← digits.foldlM (fun n c ↦ return 16 * n + (← hexValue? c)) 0
  if n.isValidChar then some (Char.ofNat n) else none

/-- A character written by its number in `n` digits. -/
def numbered? (n : Nat) (cs : List Char) : Option (Char × List Char) :=
  if n ≤ cs.length then (scalar? (cs.take n)).map (·, cs.drop n) else none

/-- The character with a letter of its own. -/
def named? : Char → Option Char
  | 'b' => some '\x08'
  | 't' => some '\t'
  | 'n' => some '\n'
  | 'f' => some '\x0c'
  | 'r' => some '\r'
  | '"' => some '"'
  | '\\' => some '\\'
  | _ => none

/-- The character that is written by what follows a backslash. -/
def escape? : List Char → Option (Char × List Char)
  | [] => none
  | 'u' :: cs => numbered? 4 cs
  | 'U' :: cs => numbered? 8 cs
  | c :: cs => (named? c).map (·, cs)

theorem length_of_numbered? {n : Nat} {cs rest : List Char} {c : Char}
    (h : numbered? n cs = some (c, rest)) : rest.length ≤ cs.length := by
  unfold numbered? at h
  split at h
  · obtain ⟨_, _, h⟩ := Option.map_eq_some_iff.1 h
    obtain ⟨rfl, rfl⟩ := Prod.mk.inj h
    simp
  · simp at h

theorem length_of_escape? {cs rest : List Char} {c : Char} (h : escape? cs = some (c, rest)) :
    rest.length < cs.length := by
  unfold escape? at h
  split at h
  · simp at h
  · exact Nat.lt_succ_of_le (length_of_numbered? h)
  · exact Nat.lt_succ_of_le (length_of_numbered? h)
  · obtain ⟨_, _, h⟩ := Option.map_eq_some_iff.1 h
    obtain ⟨rfl, rfl⟩ := Prod.mk.inj h
    simp

/-- The two kinds of quotation. -/
inductive Quotation where
  | basic
  | literal
  deriving DecidableEq, Repr

namespace Quotation

def mark : Quotation → Char
  | basic => '"'
  | literal => '\''

/-- Whether a character stands for itself. -/
def isPlain : Quotation → Char → Bool
  | basic, c => isText c && c != '\\'
  | literal, c => isText c

/-- The text up to the closing mark, on one line. -/
def line? (q : Quotation) (cs : List Char) : Option (List Char × List Char) :=
  match cs with
  | [] => none
  | c :: cs =>
    if c = q.mark then some ([], cs)
    else if q.isPlain c then (line? q cs).map fun (text, rest) ↦ (c :: text, rest)
    else if q = .basic ∧ c = '\\' then
      match _h : escape? cs with
      | none => none
      | some (e, rest) => (line? q rest).map fun (text, rest) ↦ (e :: text, rest)
    else none
termination_by cs.length
decreasing_by
  · simp
  · exact Nat.lt_succ_of_lt (length_of_escape? ‹_›)

/-- Whether a backslash stands at the end of its line. -/
def endsLine (cs : List Char) : Bool :=
  match cs.dropWhile isSpace with
  | '\n' :: _ => true
  | '\r' :: '\n' :: _ => true
  | _ => false

/-- The text up to the closing marks, over several lines. While `skipping`, blanks and newlines
are dropped. -/
def lines? (q : Quotation) (skipping : Bool) (cs : List Char) : Option (List Char × List Char) :=
  match cs with
  | [] => none
  | '\r' :: '\n' :: cs => push skipping '\n' (lines? q skipping cs)
  | c :: cs =>
    if c = q.mark then
      let marks := 1 + (cs.takeWhile (· == c)).length
      if 3 ≤ marks then
        some (List.replicate (min marks 5 - 3) c, cs.drop (min marks 5 - 1))
      else push false c (lines? q false cs)
    else if c = '\n' then push skipping c (lines? q skipping cs)
    else if isSpace c then push skipping c (lines? q skipping cs)
    else if q.isPlain c then push false c (lines? q false cs)
    else if q = .basic ∧ c = '\\' then
      if endsLine cs then lines? q true cs
      else
        match _h : escape? cs with
        | none => none
        | some (e, rest) => push false e (lines? q false rest)
    else none
termination_by cs.length
decreasing_by
  all_goals try have := length_of_escape? ‹escape? _ = some _›
  all_goals simp only [List.length_cons]; omega
where
  /-- Puts a character in front of a text, unless it is dropped. -/
  push (dropped : Bool) (c : Char) : Option (List Char × List Char) → Option (List Char × List Char)
    | some (text, rest) => some (if dropped then text else c :: text, rest)
    | none => none

/-- A text on one line with its marks. -/
def line (q : Quotation) : Reader String := do
  char q.mark
  return String.ofList (← q.line?)

/-- A text over several lines with its marks. -/
def lines (q : Quotation) : Reader String := do
  word (String.ofList (List.replicate 3 q.mark))
  discard (optional newline)
  return String.ofList (← q.lines? false)

end Quotation

/-- A string. -/
def quoted : Reader String :=
  Quotation.basic.lines <|> Quotation.basic.line <|>
    Quotation.literal.lines <|> Quotation.literal.line

end KernelCall.Toml
