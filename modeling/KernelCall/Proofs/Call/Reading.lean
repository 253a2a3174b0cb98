import KernelCall.Call.Signature
import KernelCall.Proofs.Text.Token
import KernelCall.Proofs.Variable.Related

/-!
# Reading signatures

A signature is a text, but as long as the names in it are free of the marks that structure it, it
can be read: it determines the tree of its variables, and at each node the path, the host type and
the text of the pin.
-/

namespace KernelCall

open Text

/-! ## Axes -/

namespace Mapping

private def axisText (axis : Nat) : List Char := (toString axis).toList

/-- What stands between the parentheses. -/
private def inner : List Nat → List Char
  | [axis] => axisText axis ++ [',']
  | l => [',', ' '].intercalate (l.map axisText)

private theorem text_onto (l : List Nat) : (onto l).text.toList = '(' :: (inner l ++ [')']) := by
  rcases l with _ | ⟨a, _ | ⟨b, l⟩⟩
  · rfl
  · simp [text, inner, axisText]
  · simp only [text, inner, String.toList_append, String.toList_intercalate, List.map_map]
    rfl

private theorem inner_of_not_singleton {l : List Nat} (h : ∀ a, l ≠ [a]) :
    inner l = [',', ' '].intercalate (l.map axisText) := by
  rcases l with _ | ⟨a, _ | ⟨b, l⟩⟩
  · rfl
  · exact absurd rfl (h a)
  · rfl

private theorem axisText_append_ne (axis : Nat) (r s : List Char) :
    axisText axis ++ r ≠ ')' :: s := by
  intro h
  have hne : axisText axis ≠ [] := by
    rw [axisText, Nat.toString_eq_repr, Nat.repr, String.toList_ofList]
    exact Nat.toDigits_ne_nil
  obtain ⟨c, cs, hc⟩ := List.exists_cons_of_ne_nil hne
  have hmem : c ∈ axisText axis := by
    rw [hc]
    exact List.mem_cons_self
  have hdigit : c.isDigit := isDigit_of_mem_toString hmem
  rw [hc, List.cons_append, List.cons.injEq] at h
  rw [h.1] at hdigit
  exact absurd hdigit (by decide)

private theorem halts_comma (r : List Char) : Halts (fun c ↦ c.isDigit = true) (',' :: r) :=
  halts_cons (by decide) (by decide)

private theorem eq_singleton_of_inner {a : Nat} {l : List Nat} {r s : List Char}
    (h : axisText a ++ ',' :: ')' :: r = inner l ++ ')' :: s) : l = [a] ∧ r = s := by
  rcases l with _ | ⟨b, _ | ⟨c, l⟩⟩
  · exact absurd h (axisText_append_ne a _ s)
  · rw [inner, List.append_assoc, List.singleton_append] at h
    obtain ⟨rfl, htail⟩ := toString_inj (halts_comma _) (halts_comma _) h
    exact ⟨rfl, (List.cons.inj (List.cons.inj htail).2).2⟩
  · rw [inner_of_not_singleton (by simp), List.map_cons, intercalate_cons, List.append_assoc,
      List.map_cons, List.flatMap_cons] at h
    obtain ⟨-, htail⟩ := toString_inj (halts_comma _) (halts_comma _) h
    simp at htail

/-- **Axes can be read.** -/
theorem text_inj {l l' : List Nat} {r s : List Char}
    (h : (onto l).text.toList ++ r = (onto l').text.toList ++ s) : l = l' ∧ r = s := by
  simp only [text_onto, List.cons_append, List.append_assoc, List.nil_append,
    List.cons.injEq, true_and] at h
  by_cases hl : ∃ a, l = [a]
  · obtain ⟨a, rfl⟩ := hl
    rw [inner, List.append_assoc] at h
    obtain ⟨rfl, hrs⟩ := eq_singleton_of_inner h
    exact ⟨rfl, hrs⟩
  by_cases hl' : ∃ a, l' = [a]
  · obtain ⟨a, rfl⟩ := hl'
    rw [inner, List.append_assoc] at h
    obtain ⟨rfl, hrs⟩ := eq_singleton_of_inner h.symm
    exact ⟨rfl, hrs.symm⟩
  rw [inner_of_not_singleton (not_exists.mp hl), inner_of_not_singleton (not_exists.mp hl')] at h
  obtain ⟨hall, hrs⟩ := forall₂_of_intercalate (R := Eq) (Q := Halts (fun c ↦ c.isDigit = true))
    (fun r ↦ halts_comma _) (fun r ↦ halts_cons (by decide) (by decide)) (by decide)
    (fun a _ ↦ axisText_append_ne a) (fun a _ ↦ axisText_append_ne a)
    (fun a _ b _ r s hr hs h ↦ toString_inj hr hs h) h
  rw [List.forall₂_eq_eq_eq] at hall
  exact ⟨hall, hrs⟩

end Mapping

/-! ## Names -/

/-- The characters that structure a signature. -/
def isMark (c : Char) : Bool := " \x7b\x7d();:=".toList.contains c

/-- The text is free of the marks that structure a signature. -/
def IsPlain (s : String) : Prop := ∀ c ∈ s.toList, isMark c = false

theorem isPlain_iff {s : String} : IsPlain s ↔ s.toList.all (!isMark ·) := by
  simp [IsPlain]

instance (s : String) : Decidable (IsPlain s) := decidable_of_iff _ isPlain_iff.symm

/-- A pin to axes or to a kind is always legible; a type is if its name is free of marks. -/
def Pin.Legible : Pin → Prop
  | axes _ | hostKind _ => True
  | type t => IsPlain t.name
  | typeName name => IsPlain name

instance (p : Pin) : Decidable p.Legible :=
  match p with
  | .axes _ | .hostKind _ => isTrue trivial
  | .type t => inferInstanceAs (Decidable (IsPlain t.name))
  | .typeName name => inferInstanceAs (Decidable (IsPlain name))

/-- All names that a node's signature is put together from are free of marks. -/
structure Node.Legible (n : Node) : Prop where
  path : IsPlain n.path
  typeName : IsPlain n.marshall.typeName
  pin : ∀ p ∈ n.pin?, p.Legible

instance (n : Node) : Decidable n.Legible :=
  decidable_of_iff (IsPlain n.path ∧ IsPlain n.marshall.typeName ∧ ∀ p ∈ n.pin?, p.Legible)
    ⟨fun h ↦ ⟨h.1, h.2.1, h.2.2⟩, fun h ↦ ⟨h.path, h.typeName, h.pin⟩⟩

/-- The nodes have the same text in a signature, piece by piece. -/
structure Node.SameText (n m : Node) : Prop where
  path : n.path = m.path
  typeName : n.marshall.typeName = m.marshall.typeName
  pin : n.pin?.map Pin.text = m.pin?.map Pin.text

theorem Node.SameText.signature_eq {n m : Node} (h : n.SameText m) : n.signature = m.signature := by
  have hpin := h.pin
  rw [Node.signature, Node.signature, h.path, h.typeName]
  cases hn : n.pin? with
  | none =>
    rw [hn] at hpin
    rw [Option.map_eq_none_iff.mp hpin.symm]
  | some p =>
    rw [hn] at hpin
    obtain ⟨q, hq, htext⟩ := Option.map_eq_some_iff.mp hpin.symm
    rw [hq]
    exact congrArg (fun text ↦ m.path ++ ":" ++ m.marshall.typeName ++ ("=" ++ text)) htext.symm

/-- The end of a variable: the end of a list, or a separator. -/
def EndsVariable (r : List Char) : Prop :=
  (∃ s, r = '\x7d' :: s) ∨ (∃ s, r = ';' :: s) ∨ (∃ s, r = ')' :: s) ∨ [',', ' '] <+: r

/-- The end of a node: the end of a variable, or the beginning of its fields. -/
def EndsNode (r : List Char) : Prop := EndsVariable r ∨ ∃ s, r = '\x7b' :: s

/-- A pin's text may have a colon in it. -/
private def inPin (c : Char) : Prop := isMark c = false ∨ c = ':'

private theorem EndsNode.halts {r : List Char} (h : EndsNode r) : Halts inPin r := by
  have hmark : ∀ {c : Char} {s : List Char}, c ≠ ':' → c ≠ ' ' → isMark c → Halts inPin (c :: s) :=
    fun h₁ h₂ h₃ ↦ halts_cons (by simp [inPin, h₁, h₃]) h₂
  rcases h with (⟨s, rfl⟩ | ⟨s, rfl⟩ | ⟨s, rfl⟩ | h) | ⟨s, rfl⟩
  · exact hmark (by decide) (by decide) (by decide)
  · exact hmark (by decide) (by decide) (by decide)
  · exact hmark (by decide) (by decide) (by decide)
  · exact Or.inr h
  · exact hmark (by decide) (by decide) (by decide)

/-- The text of a pin is in parentheses, or free of marks other than the colon. -/
private theorem Pin.text_cases {p : Pin} (h : p.Legible) :
    (∃ l, p = .axes l) ∨ ∀ c ∈ p.text.toList, inPin c := by
  cases p with
  | axes l => exact Or.inl ⟨l, rfl⟩
  | type t => exact Or.inr fun c hc ↦ Or.inl (h c hc)
  | typeName name => exact Or.inr fun c hc ↦ Or.inl (h c hc)
  | hostKind kind =>
    have hall : (hostKind kind).text.toList.all fun c ↦ !isMark c || c == ':' := by
      cases kind <;> rfl
    refine Or.inr fun c hc ↦ ?_
    simpa [inPin] using List.all_eq_true.mp hall c hc

private theorem Pin.axes_text_append_ne {l : List Nat} {t r s : List Char}
    (ht : ∀ c ∈ t, inPin c) (hs : EndsNode s) : (Pin.axes l).text.toList ++ r ≠ t ++ s := by
  intro h
  rw [show (Pin.axes l).text = (Mapping.onto l).text from rfl, Mapping.text_onto] at h
  rcases t with _ | ⟨c, t⟩
  · rcases hs with (⟨s, rfl⟩ | ⟨s, rfl⟩ | ⟨s, rfl⟩ | ⟨s, rfl⟩) | ⟨s, rfl⟩ <;> simp at h
  · rw [List.cons_append, List.cons_append, List.cons.injEq] at h
    have hc := ht c List.mem_cons_self
    rw [← h.1] at hc
    exact absurd hc (by simp [inPin, isMark])

/-- **Pins can be read.** -/
theorem Pin.text_inj {p q : Pin} (hp : p.Legible) (hq : q.Legible) {r s : List Char}
    (hr : EndsNode r) (hs : EndsNode s) (h : p.text.toList ++ r = q.text.toList ++ s) :
    p.text = q.text ∧ r = s := by
  rcases Pin.text_cases hp with ⟨l, rfl⟩ | hp <;> rcases Pin.text_cases hq with ⟨l', rfl⟩ | hq
  · obtain ⟨rfl, hrs⟩ := Mapping.text_inj h
    exact ⟨rfl, hrs⟩
  · exact absurd h (axes_text_append_ne hq hs)
  · exact absurd h.symm (axes_text_append_ne hp hr)
  · obtain ⟨ht, hrs⟩ := token_inj (by simp [inPin, isMark]) hp hq hr.halts hs.halts h
    exact ⟨String.toList_inj.mp ht, hrs⟩

/-! ## Signatures -/

private theorem halts_mark {c : Char} (h : isMark c) (hc : c ≠ ' ') (r : List Char) :
    Halts (fun c ↦ isMark c = false) (c :: r) :=
  halts_cons (by simp [h]) hc

private theorem EndsNode.halts_plain {r : List Char} (h : EndsNode r) :
    Halts (fun c ↦ isMark c = false) r :=
  h.halts.mono fun _ ↦ Or.inl

namespace Node

private def pinText (n : Node) : List Char :=
  match n.pin? with
  | some p => '=' :: p.text.toList
  | none => []

private theorem toList_signature (n : Node) (r : List Char) : n.signature.toList ++ r =
    n.path.toList ++ ':' :: (n.marshall.typeName.toList ++ (n.pinText ++ r)) := by
  rw [signature, pinText]
  cases n.pin? <;> simp

private theorem signature_append_ne {n : Node} (h : n.Legible) {c : Char} (hc : isMark c)
    (hcolon : c ≠ ':') (hblank : c ≠ ' ') (r s : List Char) :
    n.signature.toList ++ r ≠ c :: s := by
  intro hr
  rw [toList_signature, ← List.nil_append (c :: s)] at hr
  obtain ⟨-, hcs⟩ := token_inj (by decide) h.path (by simp) (halts_mark (by decide) (by decide) _)
    (halts_mark hc hblank s) hr
  exact hcolon (List.cons.inj hcs).1.symm

/-- **Nodes can be read.** -/
theorem signature_inj {n m : Node} (hn : n.Legible) (hm : m.Legible) {r s : List Char}
    (hr : EndsNode r) (hs : EndsNode s) (h : n.signature.toList ++ r = m.signature.toList ++ s) :
    n.SameText m ∧ r = s := by
  rw [toList_signature, toList_signature] at h
  have hpins : ∀ (k : Node) {q : List Char}, EndsNode q →
      Halts (fun c ↦ isMark c = false) (k.pinText ++ q) := by
    intro k q hq
    rw [pinText]
    cases k.pin? with
    | none => exact hq.halts_plain
    | some p => exact halts_mark (by decide) (by decide) _
  have hcolon := fun q ↦ halts_mark (c := ':') (by decide) (by decide) q
  obtain ⟨hpath, hrest⟩ := token_inj (by decide) hn.path hm.path (hcolon _) (hcolon _) h
  obtain ⟨htype, hrest⟩ := token_inj (by decide) hn.typeName hm.typeName (hpins n hr) (hpins m hs)
    (List.cons.inj hrest).2
  have hfirst : ∀ {q q' : List Char}, EndsNode q → q ≠ '=' :: q' := by
    rintro q q' ((⟨s, rfl⟩ | ⟨s, rfl⟩ | ⟨s, rfl⟩ | ⟨s, rfl⟩) | ⟨s, rfl⟩) <;> simp
  suffices hpin : n.pin?.map Pin.text = m.pin?.map Pin.text ∧ r = s from
    ⟨⟨String.toList_inj.mp hpath, String.toList_inj.mp htype, hpin.1⟩, hpin.2⟩
  rw [pinText, pinText] at hrest
  cases hnp : n.pin? with
  | none =>
    cases hmp : m.pin? with
    | none => exact ⟨rfl, by simpa [hnp, hmp] using hrest⟩
    | some q => exact absurd (by simpa [hnp, hmp] using hrest) (hfirst hr)
  | some p =>
    cases hmp : m.pin? with
    | none => exact absurd (by simpa [hnp, hmp] using hrest.symm) (hfirst hs)
    | some q =>
      rw [hnp, hmp] at hrest
      obtain ⟨htext, hrs⟩ := Pin.text_inj (hn.pin p hnp) (hm.pin q hmp) hr hs
        (List.cons.inj hrest).2
      exact ⟨congrArg some htext, hrs⟩

end Node

namespace Variable

theorem fieldsSignature_eq (vs : List Variable) :
    fieldsSignature vs = ";".intercalate (vs.map signature) := by
  induction vs with
  | nil => rfl
  | cons v vs ih =>
    rcases vs with _ | ⟨w, ws⟩
    · rfl
    · rw [fieldsSignature, ih]
      · simp [String.intercalate_cons_cons, String.append_assoc]
      · simp

theorem signature_eq_of_related {v w : Variable} (h : Related Node.SameText v w) :
    v.signature = w.signature := by
  induction v generalizing w with
  | leaf n =>
    obtain ⟨m, rfl, hm⟩ := related_leaf_iff.mp h
    exact hm.signature_eq
  | dict n fs ih =>
    obtain ⟨m, gs, rfl, hm, hfg⟩ := related_dict_iff.mp h
    have hfields : fs.map signature = gs.map signature :=
      map_eq_of_forall₂ (forall₂_of_mem hfg fun f hf g _ hfg ↦ ih f hf hfg)
    rw [signature, signature, hm.signature_eq, fieldsSignature_eq, fieldsSignature_eq, hfields]

private theorem toList_signature_dict (n : Node) (fs : List Variable) (r : List Char) :
    (dict n fs).signature.toList ++ r = n.signature.toList ++ '\x7b' ::
      ([';'].intercalate (fs.map fun f ↦ f.signature.toList) ++ '\x7d' :: r) := by
  simp [signature, fieldsSignature_eq, Function.comp_def]

/-- All names in the variable are free of marks. -/
def Legible (v : Variable) : Prop := ∀ n ∈ v.nodes, n.Legible

instance (v : Variable) : Decidable v.Legible :=
  inferInstanceAs (Decidable (∀ n ∈ v.nodes, n.Legible))

theorem Legible.field {n : Node} {fs : List Variable} (h : (dict n fs).Legible) {f : Variable}
    (hf : f ∈ fs) : f.Legible :=
  fun m hm ↦ h m (mem_nodes_of_field hf hm)

private theorem signature_append_ne {v : Variable} (h : v.Legible) {c : Char} (hc : isMark c)
    (hcolon : c ≠ ':') (hblank : c ≠ ' ') (r s : List Char) :
    v.signature.toList ++ r ≠ c :: s := by
  cases v with
  | leaf n => exact Node.signature_append_ne (h n (by simp)) hc hcolon hblank r s
  | dict n fs =>
    rw [toList_signature_dict]
    exact Node.signature_append_ne (h n (node_mem_nodes_dict n fs)) hc hcolon hblank _ s

/-- **Variables can be read**: a signature determines the tree and the texts in it. -/
theorem signature_inj {v w : Variable} (hv : v.Legible) (hw : w.Legible) {r s : List Char}
    (hr : EndsVariable r) (hs : EndsVariable s)
    (h : v.signature.toList ++ r = w.signature.toList ++ s) :
    Related Node.SameText v w ∧ r = s := by
  have hfirst : ∀ {q q' : List Char}, EndsVariable q → q ≠ '\x7b' :: q' := by
    rintro q q' (⟨s, rfl⟩ | ⟨s, rfl⟩ | ⟨s, rfl⟩ | ⟨s, rfl⟩) <;> simp
  induction v generalizing w r s with
  | leaf n =>
    have hn := hv n (by simp)
    cases w with
    | leaf m =>
      obtain ⟨hnm, hrs⟩ := Node.signature_inj hn (hw m (by simp)) (Or.inl hr) (Or.inl hs) h
      exact ⟨related_leaf hnm, hrs⟩
    | dict m gs =>
      rw [toList_signature_dict] at h
      obtain ⟨-, hrs⟩ := Node.signature_inj hn (hw m (node_mem_nodes_dict m gs)) (Or.inl hr)
        (Or.inr ⟨_, rfl⟩) h
      exact absurd hrs (hfirst hr)
  | dict n fs ih =>
    have hn := hv n (node_mem_nodes_dict n fs)
    rw [toList_signature_dict] at h
    cases w with
    | leaf m =>
      obtain ⟨-, hrs⟩ := Node.signature_inj hn (hw m (by simp)) (Or.inr ⟨_, rfl⟩)
        (Or.inl hs) h
      exact absurd hrs.symm (hfirst hs)
    | dict m gs =>
      rw [toList_signature_dict] at h
      obtain ⟨hnm, hrest⟩ := Node.signature_inj hn (hw m (node_mem_nodes_dict m gs))
        (Or.inr ⟨_, rfl⟩) (Or.inr ⟨_, rfl⟩) h
      obtain ⟨hfg, hrs⟩ := forall₂_of_intercalate (R := Related Node.SameText) (Q := EndsVariable)
        (fun r ↦ Or.inr (Or.inl ⟨r, rfl⟩)) (fun r ↦ Or.inl ⟨r, rfl⟩) (by decide)
        (fun f hf ↦ signature_append_ne (hv.field hf) (by decide) (by decide) (by decide))
        (fun g hg ↦ signature_append_ne (hw.field hg) (by decide) (by decide) (by decide))
        (fun f hf g hg r s hr hs h ↦ ih f hf (hv.field hf) (hw.field hg) hr hs h)
        (List.cons.inj hrest).2
      exact ⟨related_dict hnm hfg, hrs⟩

end Variable

namespace Call

/-- All names in the call are free of marks. -/
def Legible (c : Call) : Prop := ∀ v ∈ c.roots, v.Legible

instance (c : Call) : Decidable c.Legible :=
  inferInstanceAs (Decidable (∀ v ∈ c.roots, v.Legible))

/-- **Signatures can be read**: that of a call determines the trees of its variables and the texts
in them. -/
theorem related_of_signature {c c' : Call} (hc : c.Legible) (hc' : c'.Legible)
    (hname : c.functionName = c'.functionName) (h : c.signature = c'.signature) :
    List.Forall₂ (Variable.Related Node.SameText) c.roots c'.roots := by
  have hlist : [',', ' '].intercalate (c.roots.map fun v ↦ v.signature.toList) ++ [')'] =
      [',', ' '].intercalate (c'.roots.map fun v ↦ v.signature.toList) ++ [')'] := by
    have h := congrArg String.toList h
    rw [signature, signature, hname] at h
    simpa [Function.comp_def] using h
  obtain ⟨hroots, -⟩ := forall₂_of_intercalate (R := Variable.Related Node.SameText)
    (Q := EndsVariable) (fun r ↦ Or.inr (Or.inr (Or.inr (List.prefix_append _ r))))
    (fun r ↦ Or.inr (Or.inr (Or.inl ⟨r, rfl⟩))) (by decide)
    (fun v hv ↦ Variable.signature_append_ne (hc v hv) (by decide) (by decide) (by decide))
    (fun v hv ↦ Variable.signature_append_ne (hc' v hv) (by decide) (by decide) (by decide))
    (fun v hv w hw r s hr hs h ↦ Variable.signature_inj (hc v hv) (hc' w hw) hr hs h) hlist
  exact hroots

/-- Nothing else is in a signature: calls with the same trees and texts have one. -/
theorem signature_eq_of_related {c c' : Call} (hname : c.functionName = c'.functionName)
    (h : List.Forall₂ (Variable.Related Node.SameText) c.roots c'.roots) :
    c.signature = c'.signature := by
  have hroots : c.roots.map Variable.signature = c'.roots.map Variable.signature :=
    map_eq_of_forall₂ (h.imp fun _ _ ↦ Variable.signature_eq_of_related)
  rw [signature, signature, hname, hroots]

end Call

end KernelCall
