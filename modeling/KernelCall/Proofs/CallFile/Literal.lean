import KernelCall.CallFile.Literal
import KernelCall.HostValue
import KernelCall.Proofs.Toml.Record

/-!
# Reading literals

The values that are used as host values inside another are its *parts*. They are the same on all
three levels, in the document, in what is read from it and in the arguments that this stands for.
Reading takes parts to parts, in order (`Reads.parts`). Such a fact about a single level carries
over to every place inside a value (`rel_partAt?`).

What a table is read as depends on whether it names a kind. If it does, it is a resource, and what
that needs is stated by `Tagged`, form by form. If it does not, it is a dictionary of its entries.
-/

namespace KernelCall

open Toml

/-! ## Places inside values -/

/-- What stands at an address inside a value, each step of which goes to one of the parts. -/
def partAt? {α : Type} (parts : α → List (String × α)) : (address : List Nat) → α → Option α
  | [], a => some a
  | i :: address, a => (parts a)[i]?.bind fun e ↦ partAt? parts address e.2

/-- If related values have related parts under the same keys, the same addresses lead somewhere in
both, and to related values. -/
theorem rel_partAt? {α β : Type} {R : α → β → Prop} {p : α → List (String × α)}
    {q : β → List (String × β)} (h : ∀ a b, R a b → List.Forall₂ (SameEntry R) (p a) (q b)) {a : α}
    {b : β} (hab : R a b) (address : List Nat) :
    Option.Rel R (partAt? p address a) (partAt? q address b) := by
  induction address generalizing a b with
  | nil => exact .some hab
  | cons i address ih =>
    exact rel_bind (rel_getElem?_of_forall₂ (h a b hab) i) fun e f hef ↦ ih hef.2

/-! ## Parts -/

/-- The kind of a reference to a value. -/
def referenceKind : String := "value_ref"

/-- The field for what a reference refers to. -/
def referentKey : String := "value"

/-- The string under `kind` in a table. -/
def kindOf? (es : List (String × Value)) : Option String :=
  field? (·.string?) CallFile.HostLiteral.kindKey es

/-- The values that are used as host values inside one that is used so: the entries of a table,
and what a reference refers to. In a table that names its kind other entries are not used. -/
def Toml.Value.parts : Value → List (String × Value)
  | .table es =>
    match kindOf? es with
    | none => byKey es
    | some kind =>
      if kind = referenceKind then (lookup referentKey es).toList.map (referentKey, ·) else []
  | .array [.string kind, v] => if kind = referenceKind then [(referentKey, v)] else []
  | _ => []

def HostValue.parts : HostValue → List (String × HostValue)
  | .dict entries => entries
  | .valueRef x => [(referentKey, x)]
  | _ => []

namespace CallFile.HostLiteral

def parts : HostLiteral → List (String × HostLiteral)
  | .dict entries => entries
  | .valueRef l => [(referentKey, l)]
  | _ => []

/-- The kind of the host value that is written. -/
def kind : HostLiteral → HostKind
  | .bool _ => .bool
  | .int _ => .int
  | .float _ => .float
  | .list _ => .vector
  | .vector .. => .vector
  | .valueRef _ => .valueRef
  | .diffPair .. => .diffPair
  | .buffer _ _ _ none => .buffer
  | .buffer _ _ _ (some _) => .diffBuffer
  | .texture .. => .texture
  | .dict _ => .dict

/-! ## Resources -/

/-- The resource of a kind with given fields: those that it needs are there, and every field that
is there has the right form. `inner?` is the reading of what a reference refers to. -/
inductive Tagged (es : List (String × Value)) (inner? : Option HostLiteral) :
    (kind : String) → HostLiteral → Prop where
  | vector {scalar : String} {components : List Float}
    (hscalar : fieldOr (·.string?) "float" "scalar" es = some scalar)
    (hvalues : field? (·.list? (·.number?)) "values" es = some components) :
    Tagged es inner? "vector" (.vector scalar components)
  | valueRef {l : HostLiteral} (hvalue : inner? = some l) :
    Tagged es inner? "value_ref" (.valueRef l)
  | diffPair {primal grad : Float} {needsGrad : Bool}
    (hprimal : field? (·.number?) "primal" es = some primal)
    (hgrad : fieldOr (·.number?) 0 "grad" es = some grad)
    (hneeds : fieldOr (·.boolean?) true "needs_grad" es = some needsGrad) :
    Tagged es inner? "diff_pair" (.diffPair primal grad needsGrad)
  | buffer {element : String} {extents : List Nat} {writable : Bool} {grad? : Option Bool}
    (helement : field? (·.string?) "element" es = some element)
    (hshape : field? (·.list? (·.count?)) "shape" es = some extents)
    (hwritable : fieldOr (·.boolean?) false "writable" es = some writable)
    (hgrad : fieldOr (fun v ↦ some <$> v.boolean?) none "grad" es = some grad?) :
    Tagged es inner? "buffer" (.buffer element extents writable grad?)
  | texture {texel : String} {size : List Nat} {writable : Bool}
    (htexel : field? (·.string?) "texel" es = some texel)
    (hsize : field? (·.list? (·.count?)) "size" es = some size)
    (hwritable : fieldOr (·.boolean?) false "writable" es = some writable) :
    Tagged es inner? "texture" (.texture texel size writable)

variable {es : List (String × Value)} {inner? : Option HostLiteral} {k : String} {l : HostLiteral}

theorem ofFields?_eq_some_iff : ofFields? k es inner? = some l ↔ Tagged es inner? k l := by
  constructor
  · intro h
    unfold ofFields? at h
    split at h
    · obtain ⟨scalar, hscalar, h⟩ := Option.bind_eq_some_iff.mp h
      obtain ⟨components, hvalues, h⟩ := Option.bind_eq_some_iff.mp h
      cases h
      exact .vector hscalar hvalues
    · obtain ⟨l, hvalue, h⟩ := Option.bind_eq_some_iff.mp h
      cases h
      exact .valueRef hvalue
    · obtain ⟨primal, hprimal, h⟩ := Option.bind_eq_some_iff.mp h
      obtain ⟨grad, hgrad, h⟩ := Option.bind_eq_some_iff.mp h
      obtain ⟨needsGrad, hneeds, h⟩ := Option.bind_eq_some_iff.mp h
      cases h
      exact .diffPair hprimal hgrad hneeds
    · obtain ⟨element, helement, h⟩ := Option.bind_eq_some_iff.mp h
      obtain ⟨extents, hshape, h⟩ := Option.bind_eq_some_iff.mp h
      obtain ⟨writable, hwritable, h⟩ := Option.bind_eq_some_iff.mp h
      obtain ⟨grad?, hgrad, h⟩ := Option.bind_eq_some_iff.mp h
      cases h
      exact .buffer helement hshape hwritable hgrad
    · obtain ⟨texel, htexel, h⟩ := Option.bind_eq_some_iff.mp h
      obtain ⟨size, hsize, h⟩ := Option.bind_eq_some_iff.mp h
      obtain ⟨writable, hwritable, h⟩ := Option.bind_eq_some_iff.mp h
      cases h
      exact .texture htexel hsize hwritable
    · cases h
  · intro h
    cases h <;> simp only [ofFields?, *] <;> rfl

theorem Tagged.kind_ne_dict (h : Tagged es inner? k l) : l.kind ≠ .dict := by
  cases h with
  | @buffer _ _ _ grad? => cases grad? <;> exact nofun
  | _ => exact nofun

theorem Tagged.parts_of_reference (h : Tagged es inner? k l) (hk : k = referenceKind) :
    ∃ l', inner? = some l' ∧ l.parts = [(referentKey, l')] := by
  cases h with
  | valueRef hvalue => exact ⟨_, hvalue, rfl⟩
  | _ => exact absurd hk (by decide)

theorem Tagged.parts_eq_nil (h : Tagged es inner? k l) (hk : k ≠ referenceKind) : l.parts = [] := by
  cases h with
  | valueRef => exact absurd rfl hk
  | _ => rfl

/-! ## Reading -/

/-- The value of a document is read as the literal. -/
def Reads (v : Value) (l : HostLiteral) : Prop :=
  ofValue? v = some l

theorem readEntries_eq_map (es : List (String × Value)) :
    readEntries es = es.map fun e ↦ (e.1, ofValue? e.2) := by
  induction es with
  | nil => rfl
  | cons e es ih => rw [readEntries, ih, List.map_cons]

theorem lookup_readEntries (key : String) (es : List (String × Value)) :
    (lookup key (readEntries es)).join = field? ofValue? key es := by
  rw [readEntries_eq_map, lookup_map, field?]
  cases lookup key es <;> rfl

theorem ofReadings?_eq_some_iff : ofReadings? (readEntries es) = some l ↔
    ∃ ls, List.Forall₂ (SameEntry Reads) es ls ∧ l = .dict (byKey ls) := by
  refine Option.bind_eq_some_iff.trans (exists_congr fun ls ↦ and_congr ?_ ?_)
  · refine (@mapM_entries_eq_some_iff _ _ id (readEntries es) ls).trans ?_
    rw [readEntries_eq_map, List.forall₂_map_left_iff]
    rfl
  · exact Option.some_inj.trans eq_comm

theorem mem_of_kindOf? (h : kindOf? es = some k) : (kindKey, .string k) ∈ es := by
  obtain ⟨v, hv, hk⟩ := Option.bind_eq_some_iff.mp h
  cases v with
  | string s =>
    cases hk
    exact mem_of_lookup hv
  | _ => cases hk

/-- A table with a string is no dictionary. -/
theorem ofReadings?_eq_none {key s : String} (h : (key, .string s) ∈ es) :
    ofReadings? (readEntries es) = none := by
  rw [Option.eq_none_iff_forall_ne_some]
  intro l hl
  obtain ⟨ls, hls, -⟩ := ofReadings?_eq_some_iff.mp hl
  obtain ⟨f, -, -, hread⟩ := exists_of_forall₂_left hls h
  cases hread

theorem ofTagged?_eq_none (h : kindOf? es = none) : ofTagged? es (readEntries es) = none := by
  rw [ofTagged?]
  exact Option.bind_eq_none_iff.mpr fun k hk ↦ absurd (h.symm.trans hk) nofun

/-- A resource has every field that its kind needs. -/
theorem Tagged.exists_fields (h : Tagged es (field? ofValue? referentKey es) k l) :
    ∃ fs, resourceFields? k = some fs ∧ Field.arePresent fs es := by
  cases h with
  | vector _ hvalues => exact ⟨_, rfl, by simp [Field.arePresent, isSome_of_field? hvalues]⟩
  | valueRef hvalue =>
    rw [referentKey] at hvalue
    exact ⟨_, rfl, by simp [Field.arePresent, isSome_of_field? hvalue]⟩
  | diffPair hprimal => exact ⟨_, rfl, by simp [Field.arePresent, isSome_of_field? hprimal]⟩
  | buffer helement hshape =>
    exact ⟨_, rfl, by
      simp [Field.arePresent, isSome_of_field? helement, isSome_of_field? hshape]⟩
  | texture htexel hsize =>
    exact ⟨_, rfl, by simp [Field.arePresent, isSome_of_field? htexel, isSome_of_field? hsize]⟩

theorem ofTagged?_eq_some_iff (hk : kindOf? es = some k) : ofTagged? es (readEntries es) = some l ↔
    Tagged es (field? ofValue? referentKey es) k l := by
  have hread : ofTagged? es (readEntries es) = (resourceFields? k).bind fun fs ↦
      if Field.arePresent fs es then ofFields? k es (field? ofValue? referentKey es) else none := by
    rw [kindOf?] at hk
    rw [ofTagged?, hk, ← lookup_readEntries]
    rfl
  rw [hread, ← ofFields?_eq_some_iff, Option.bind_eq_some_iff]
  constructor
  · rintro ⟨fs, -, h⟩
    split at h
    · exact h
    · cases h
  · intro h
    obtain ⟨fs, hfs, hpresent⟩ := (ofFields?_eq_some_iff.mp h).exists_fields
    exact ⟨fs, hfs, by rw [if_pos hpresent, h]⟩

/-- **A table that names its kind is the resource of that kind, or it has no reading.** -/
theorem ofValue?_table_of_kind (hk : kindOf? es = some k) :
    ofValue? (.table es) = some l ↔ Tagged es (field? ofValue? referentKey es) k l := by
  rw [ofValue?, ofReadings?_eq_none (mem_of_kindOf? hk), ← ofTagged?_eq_some_iff hk]
  cases ofTagged? es (readEntries es) <;> exact Iff.rfl

/-- Every other table is a dictionary, or it has no reading. -/
theorem ofValue?_table_of_no_kind (hk : kindOf? es = none) : ofValue? (.table es) = some l ↔
    ∃ ls, List.Forall₂ (SameEntry Reads) es ls ∧ l = .dict (byKey ls) := by
  rw [ofValue?, ofTagged?_eq_none hk, ← ofReadings?_eq_some_iff]
  rfl

theorem parts_of_mapM_number? {vs : List Value} {xs : List Float}
    (h : vs.mapM (·.number?) = some xs) : (Value.array vs).parts = [] := by
  cases vs with
  | nil => rfl
  | cons v vs =>
    obtain ⟨x, _, hx, -, -⟩ := bind_map_cons_eq_some_iff.mp ((option_mapM_cons _ v vs).symm.trans h)
    cases v with
    | string s => cases hx
    | _ => rfl

/-- An array with a string for its first item, which names the kind, is a resource as well. -/
theorem ofListed?_eq_some {vs : List Value} (h : ofListed? vs (readItems vs) = some l) :
    ∃ k fields ws es, vs = .string k :: ws ∧ resourceFields? k = some fields ∧
      ws.length ≤ fields.length ∧ Field.ofItems? fields ws = some es ∧
        Tagged es (readItems ws).head?.join k l := by
  rw [readItems.eq_def] at h
  unfold ofListed? at h
  split at h
  · next k ws _ read heq =>
    cases heq
    obtain ⟨fields, hfields, h⟩ := Option.bind_eq_some_iff.mp h
    split at h
    · cases h
    · next hlength =>
      obtain ⟨es, hes, h⟩ := Option.bind_eq_some_iff.mp h
      exact ⟨k, fields, ws, es, rfl, hfields, Nat.le_of_not_lt hlength, hes,
        ofFields?_eq_some_iff.mp h⟩
  · cases h

theorem parts_of_ofListed? {vs : List Value} (h : ofListed? vs (readItems vs) = some l) :
    List.Forall₂ (SameEntry Reads) (Value.array vs).parts l.parts := by
  obtain ⟨k, fields, ws, es, rfl, hfields, hlength, -, htagged⟩ := ofListed?_eq_some h
  by_cases hk : k = referenceKind
  · subst hk
    obtain ⟨l', hl', hparts⟩ := htagged.parts_of_reference rfl
    cases hfields
    -- An array that refers to a value has just one item behind its kind.
    match ws, hlength, hl' with
    | [w], _, hl' =>
      rw [Value.parts, if_pos rfl, hparts]
      exact .cons ⟨rfl, hl'⟩ .nil
  · rw [htagged.parts_eq_nil hk]
    have hparts : (Value.array (.string k :: ws)).parts = [] := by
      unfold Value.parts
      split
      · next heq => cases heq
      · next heq =>
        cases heq
        exact if_neg hk
      · rfl
    rw [hparts]
    exact .nil

/-- **What is read has the parts of what it is read from.** -/
theorem Reads.parts {v : Value} (h : Reads v l) :
    List.Forall₂ (SameEntry Reads) v.parts l.parts := by
  cases v with
  | boolean | integer | float =>
    cases h
    exact .nil
  | string | dateTime => cases h
  | array vs =>
    rw [Reads, ofValue?] at h
    cases hxs : vs.mapM (·.number?) with
    | some xs =>
      rw [hxs] at h
      cases h
      rw [parts_of_mapM_number? hxs]
      exact .nil
    | none =>
      rw [hxs] at h
      exact parts_of_ofListed? h
  | table es =>
    cases hk : kindOf? es with
    | none =>
      obtain ⟨ls, hls, rfl⟩ := (ofValue?_table_of_no_kind hk).mp h
      rw [Value.parts, hk]
      exact forall₂_byKey hls
    | some k =>
      have htagged := (ofValue?_table_of_kind hk).mp h
      rw [Value.parts, hk]
      by_cases hkind : k = referenceKind
      · obtain ⟨l', hl', hparts⟩ := htagged.parts_of_reference hkind
        obtain ⟨v, hv, hread⟩ := Option.bind_eq_some_iff.mp hl'
        simp only [if_pos hkind, hv, hparts]
        exact .cons ⟨rfl, hread⟩ .nil
      · simp only [if_neg hkind, htagged.parts_eq_nil hkind]
        exact .nil

/-- Only a table that does not name a kind is read as a dictionary. -/
theorem Reads.exists_table {v : Value} (h : Reads v l) (hl : l.kind = .dict) :
    ∃ es, v = .table es ∧ kindOf? es = none := by
  cases v with
  | boolean | integer | float =>
    cases h
    cases hl
  | string | dateTime => cases h
  | array vs =>
    rw [Reads, ofValue?] at h
    cases hxs : vs.mapM (·.number?) with
    | some xs =>
      rw [hxs] at h
      cases h
      cases hl
    | none =>
      rw [hxs] at h
      obtain ⟨k, _, _, es, -, -, -, -, htagged⟩ := ofListed?_eq_some h
      exact absurd hl htagged.kind_ne_dict
  | table es =>
    refine ⟨es, rfl, Option.eq_none_iff_forall_ne_some.mpr fun k hk ↦ ?_⟩
    exact ((ofValue?_table_of_kind hk).mp h).kind_ne_dict hl

end CallFile.HostLiteral

end KernelCall
