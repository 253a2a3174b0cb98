import KernelCall.CallFile.Resolve
import KernelCall.Proofs.CallFile.Literal
import KernelCall.Proofs.Failure

/-!
# Resources in call files

A host value is read by trying one form after the other, and a dictionary is what is tried last.
So a table that is meant for a resource, but lacks a field or misspells its kind, might end as a
dictionary. It does not. Whatever a dictionary contains has to be a value, a string is none, and
the kind of a resource is a string: a table that names its kind is that resource, or the whole
file has no reading.

What is read stands for a host value if all names in it are known. Resolving them takes parts to
parts too, so every place of the arguments follows the place of the document with its address.
-/

namespace KernelCall

open Toml

namespace CallFile.HostLiteral

variable {layout : Layout} {l : HostLiteral} {x : HostValue}

/-! ## Resolving -/

theorem resolveEntries_eq_ok_iff {ls : List (String × HostLiteral)}
    {xs : List (String × HostValue)} : resolveEntries layout ls = .ok xs ↔
      List.Forall₂ (SameEntry fun l x ↦ l.resolve layout = .ok x) ls xs := by
  induction ls generalizing xs with
  | nil => rw [resolveEntries, List.forall₂_nil_left_iff, Except.ok.injEq, eq_comm]
  | cons e ls ih =>
    obtain ⟨key, l⟩ := e
    rw [resolveEntries, List.forall₂_cons_left_iff]
    constructor
    · intro h
      obtain ⟨x, hx, h⟩ := bind_eq_ok_iff.mp h
      obtain ⟨ys, hys, h⟩ := bind_eq_ok_iff.mp h
      cases h
      exact ⟨(key, x), ys, ⟨rfl, hx⟩, ih.mp hys, rfl⟩
    · rintro ⟨⟨_, x⟩, ys, ⟨rfl, hx⟩, hys, rfl⟩
      rw [hx, ih.mpr hys]
      rfl

/-- The host value carries what the literal says, with types and scalars in the place of their names.
The values inside are those that the literals inside stand for. -/
inductive Carries (layout : Layout) : HostLiteral → HostValue → Prop where
  | bool (b : Bool) : Carries layout (.bool b) (.bool b)
  | int (i : Int) : Carries layout (.int i) (.int i)
  | float (x : Float) : Carries layout (.float x) (.float x)
  | list (components : List Float) : Carries layout (.list components) (.vector .float components)
  | vector {name : String} {scalar : Scalar} (components : List Float)
    (hscalar : Scalar.ofName? name = some scalar) :
    Carries layout (.vector name components) (.vector scalar components)
  | valueRef {l : HostLiteral} {x : HostValue} (hinner : l.resolve layout = .ok x) :
    Carries layout (.valueRef l) (.valueRef x)
  | diffPair (primal grad : Float) (needsGrad : Bool) :
    Carries layout (.diffPair primal grad needsGrad) (.diffPair primal grad needsGrad)
  | buffer {name : String} {element : KernelType} (extents : List Nat) (writable : Bool)
    (helement : layout.find? name = some element) :
    Carries layout (.buffer name extents writable none) (.buffer { element, extents, writable })
  | diffBuffer {name : String} {element : KernelType} (extents : List Nat)
    (writable needsGrad : Bool) (helement : layout.find? name = some element) :
    Carries layout (.buffer name extents writable (some needsGrad))
      (.diffBuffer { element, extents, writable } needsGrad)
  | texture {name : String} {texel : KernelType} (size : List Nat) (writable : Bool)
    (htexel : layout.find? name = some texel) :
    Carries layout (.texture name size writable)
      (.texture { texel, dims := size.length, size, writable })
  | dict {ls : List (String × HostLiteral)} {xs : List (String × HostValue)}
    (hentries : List.Forall₂ (SameEntry fun l x ↦ l.resolve layout = .ok x) ls xs) :
    Carries layout (.dict ls) (.dict xs)

theorem findType_eq_ok_iff {name : String} {t : KernelType} :
    findType layout name = .ok t ↔ layout.find? name = some t := by
  rw [findType]
  cases layout.find? name <;> simp

/-- **What a literal stands for carries all that the literal says**, and nothing else does. -/
theorem resolve_eq_ok_iff : l.resolve layout = .ok x ↔ Carries layout l x := by
  constructor
  · intro h
    cases l with
    | bool | int | float | list | diffPair =>
      cases h
      constructor
    | vector name components =>
      rw [resolve] at h
      split at h
      · next hscalar =>
        cases h
        exact .vector components hscalar
      · cases h
    | valueRef l =>
      obtain ⟨x, hx, rfl⟩ := map_eq_ok_iff.mp h
      exact .valueRef hx
    | buffer name extents writable grad? =>
      obtain ⟨t, ht, h⟩ := bind_eq_ok_iff.mp h
      cases grad? with
      | none =>
        cases h
        exact .buffer extents writable (findType_eq_ok_iff.mp ht)
      | some needsGrad =>
        cases h
        exact .diffBuffer extents writable needsGrad (findType_eq_ok_iff.mp ht)
    | texture name size writable =>
      obtain ⟨t, ht, h⟩ := bind_eq_ok_iff.mp h
      cases h
      exact .texture size writable (findType_eq_ok_iff.mp ht)
    | dict ls =>
      obtain ⟨xs, hxs, rfl⟩ := map_eq_ok_iff.mp h
      exact .dict (resolveEntries_eq_ok_iff.mp hxs)
  · intro h
    cases h with
    | bool | int | float | list | diffPair => rfl
    | vector components hscalar => rw [resolve, hscalar]
    | valueRef hinner =>
      rw [resolve, hinner]
      rfl
    | buffer extents writable helement | diffBuffer extents writable _ helement =>
      rw [resolve, findType_eq_ok_iff.mpr helement]
      rfl
    | texture size writable htexel =>
      rw [resolve, findType_eq_ok_iff.mpr htexel]
      rfl
    | dict hentries =>
      rw [resolve, resolveEntries_eq_ok_iff.mpr hentries]
      rfl

/-- It is of the kind that the literal says, and has the parts that the literal has. -/
theorem Carries.kind_and_parts (h : Carries layout l x) : x.kind = l.kind ∧
    List.Forall₂ (SameEntry fun l x ↦ l.resolve layout = .ok x) l.parts x.parts := by
  cases h with
  | valueRef hinner => exact ⟨rfl, .cons ⟨rfl, hinner⟩ .nil⟩
  | dict hentries => exact ⟨rfl, hentries⟩
  | _ => exact ⟨rfl, .nil⟩

/-! ## Refusing -/

mutual

private theorem induct {motive : HostLiteral → Prop}
    (step : ∀ l, (∀ e ∈ l.parts, motive e.2) → motive l) : ∀ l, motive l
  | .dict ls => step _ (inductEntries step ls)
  | .valueRef l => step _ (List.forall_mem_singleton.mpr (induct step l))
  | .bool _ | .int _ | .float _ | .list _ | .vector .. | .diffPair .. | .buffer ..
  | .texture .. => step _ (List.forall_mem_nil _)

private theorem inductEntries {motive : HostLiteral → Prop}
    (step : ∀ l, (∀ e ∈ l.parts, motive e.2) → motive l) :
    ∀ ls : List (String × HostLiteral), ∀ e ∈ ls, motive e.2
  | [] => List.forall_mem_nil _
  | (_, l) :: ls => List.forall_mem_cons.mpr ⟨induct step l, inductEntries step ls⟩

end

/-- Induction over a literal by its parts. -/
@[elab_as_elim]
theorem partwise {motive : HostLiteral → Prop}
    (step : ∀ l, (∀ e ∈ l.parts, motive e.2) → motive l) (l : HostLiteral) : motive l :=
  induct step l

/-- A literal that uses a name which stands for nothing, and the error that says so. -/
inductive Refused (layout : Layout) : HostLiteral → Error → Prop where
  | vector {scalar : String} {components : List Float} (unknown : Scalar.ofName? scalar = none) :
    Refused layout (.vector scalar components) (.unknownScalar scalar)
  | buffer {element : String} {extents : List Nat} {writable : Bool} {grad? : Option Bool}
    (unknown : layout.find? element = none) :
    Refused layout (.buffer element extents writable grad?) (.unknownType element)
  | texture {texel : String} {size : List Nat} {writable : Bool}
    (unknown : layout.find? texel = none) :
    Refused layout (.texture texel size writable) (.unknownType texel)

theorem findType_eq_error {name : String} {e : Error} (h : findType layout name = .error e) :
    layout.find? name = none ∧ e = .unknownType name := by
  rw [findType] at h
  split at h
  · cases h
  · next hname =>
    cases h
    exact ⟨hname, rfl⟩

theorem failure?_resolveEntries (ls : List (String × HostLiteral)) :
    failure? (resolveEntries layout ls) = ls.findSome? fun e ↦ failure? (e.2.resolve layout) := by
  induction ls with
  | nil => rfl
  | cons e ls ih =>
    obtain ⟨key, l⟩ := e
    rw [resolveEntries, failure?_map₂, ih, List.findSome?_cons]
    cases failure? (l.resolve layout) <;> rfl

/-- **A literal stands for nothing only because of a name in it.** -/
theorem exists_refused {e : Error} (h : l.resolve layout = .error e) :
    ∃ address l', partAt? parts address l = some l' ∧ Refused layout l' e := by
  induction l using partwise with
  | step l ih =>
    have hpart : ∀ f ∈ l.parts, f.2.resolve layout = .error e →
        ∃ address l', partAt? parts address l = some l' ∧ Refused layout l' e := by
      intro f hf hfe
      obtain ⟨address, l', hat, hrefused⟩ := ih f hf hfe
      obtain ⟨i, hi⟩ := List.mem_iff_getElem?.mp hf
      exact ⟨i :: address, l', by rw [partAt?, hi, Option.bind_some, hat], hrefused⟩
    cases l with
    | bool | int | float | list | diffPair => cases h
    | vector scalar components =>
      rw [resolve] at h
      split at h
      · cases h
      · next hscalar =>
        cases h
        exact ⟨[], _, rfl, .vector hscalar⟩
    | valueRef l => exact hpart (referentKey, l) List.mem_cons_self (map_eq_error_iff.mp h)
    | buffer element extents writable grad? =>
      rw [resolve] at h
      cases htype : findType layout element with
      | ok t =>
        rw [htype] at h
        cases grad? <;> cases h
      | error e' =>
        rw [htype] at h
        cases h
        obtain ⟨hunknown, rfl⟩ := findType_eq_error htype
        exact ⟨[], _, rfl, .buffer hunknown⟩
    | texture texel size writable =>
      rw [resolve] at h
      cases htype : findType layout texel with
      | ok t =>
        rw [htype] at h
        cases h
      | error e' =>
        rw [htype] at h
        cases h
        obtain ⟨hunknown, rfl⟩ := findType_eq_error htype
        exact ⟨[], _, rfl, .texture hunknown⟩
    | dict ls =>
      have hentries := failure?_eq_some_iff.mpr (map_eq_error_iff.mp h)
      rw [failure?_resolveEntries] at hentries
      obtain ⟨f, hf, hfe⟩ := List.exists_of_findSome?_eq_some hentries
      exact hpart f hf (failure?_eq_some_iff.mp hfe)

end CallFile.HostLiteral

/-! ## Files -/

namespace CallFile

variable {layout : Layout} {v : Value} {x : HostValue}

/-- A value of a document is read, and stands for the host value. -/
def Denotes (layout : Layout) (v : Value) (x : HostValue) : Prop :=
  ∃ l, HostLiteral.Reads v l ∧ l.resolve layout = .ok x

theorem Denotes.parts (h : Denotes layout v x) :
    List.Forall₂ (SameEntry (Denotes layout)) v.parts x.parts := by
  obtain ⟨l, hread, hresolve⟩ := h
  have hresolve := (HostLiteral.resolve_eq_ok_iff.mp hresolve).kind_and_parts.2
  exact forall₂_of_common hread.parts.flip hresolve fun e _ f g hf hg ↦
    ⟨hf.1.trans hg.1, e.2, hf.2, hg.2⟩

/-- What a host value says about the value of a document that it is there for. -/
structure Faithful (layout : Layout) (v : Value) (x : HostValue) : Prop where
  denotes : Denotes layout v x
  /-- A table that names its kind has become the resource of this kind, with all that its fields say,
  and is no dictionary. -/
  resource : ∀ es k, v = .table es → kindOf? es = some k →
    ∃ l, HostLiteral.Tagged es (field? HostLiteral.ofValue? referentKey es) k l ∧
      l.resolve layout = .ok x ∧ HostLiteral.Carries layout l x ∧ x.kind = l.kind ∧
        x.kind ≠ .dict
  /-- A dictionary has been a table, none of whose entries is a string. -/
  dict : ∀ entries, x = .dict entries → ∃ es, v = .table es ∧
    List.Forall₂ (SameEntry fun w y ↦ Denotes layout w y ∧ ∀ s, w ≠ .string s) (byKey es) entries

theorem Denotes.faithful (h : Denotes layout v x) : Faithful layout v x := by
  have hparts := h.parts
  obtain ⟨l, hread, hresolve⟩ := h
  have hcarries := HostLiteral.resolve_eq_ok_iff.mp hresolve
  have hkind := hcarries.kind_and_parts.1
  refine ⟨⟨l, hread, hresolve⟩, ?_, ?_⟩
  · rintro es k rfl hk
    have htagged := (HostLiteral.ofValue?_table_of_kind hk).mp hread
    exact ⟨l, htagged, hresolve, hcarries, hkind, hkind ▸ htagged.kind_ne_dict⟩
  · rintro entries rfl
    obtain ⟨es, rfl, hk⟩ := hread.exists_table hkind.symm
    rw [Value.parts, hk] at hparts
    refine ⟨es, rfl, hparts.imp fun e f hef ↦ ⟨hef.1, hef.2, fun s hs ↦ ?_⟩⟩
    obtain ⟨l, hl, -⟩ := hef.2
    rw [hs] at hl
    cases hl

/-- The same addresses lead somewhere in a value of a document and in the host value that is there
for it, and to values that fit. -/
def Follows (layout : Layout) (v : Value) (x : HostValue) : Prop :=
  ∀ address, Option.Rel (Faithful layout) (partAt? Value.parts address v)
    (partAt? HostValue.parts address x)

theorem Denotes.follows (h : Denotes layout v x) : Follows layout v x := fun address ↦
  rel_imp (rel_partAt? (fun _ _ hvx ↦ hvx.parts) h address) fun _ _ hvx ↦ hvx.faithful

/-- The host values of a call file are taken from values of a document. -/
structure TakenFrom (file : CallFile) (args : List Value) (kwargs : List (String × Value)) :
    Prop where
  /-- Every table that is used as a host value, at whatever depth, and names its kind is the
  resource of that kind, with all the fields that this needs. -/
  resources : ∀ v ∈ args ++ kwargs.map (·.2), ∀ address es k,
    partAt? Value.parts address v = some (.table es) → kindOf? es = some k →
      ∃ l, HostLiteral.ofValue? (.table es) = some l ∧
        HostLiteral.Tagged es (field? HostLiteral.ofValue? referentKey es) k l
  /-- If the names that are used are known, the arguments follow the values of the document. -/
  arguments : ∀ layout a, file.arguments layout = .ok a →
    List.Forall₂ (Follows layout) args a.args ∧
      List.Forall₂ (SameEntry (Follows layout)) kwargs a.kwargs
  /-- There are no arguments only because of a name in one of the resources. -/
  refused : ∀ layout e, file.arguments layout = .error e → ∃ v ∈ args ++ kwargs.map (·.2),
    ∃ address w l, partAt? Value.parts address v = some w ∧ HostLiteral.Reads w l ∧
      HostLiteral.Refused layout l e

theorem exists_entries {α : Type} {read? : Value → Option α} {name : String}
    {es : List (String × Value)} {as : List (String × α)}
    (h : fieldOr (map? read?) [] name es = some as) :
    ∃ vs, fieldOr (·.entries?) [] name es = some vs ∧
      List.Forall₂ (SameEntry fun v a ↦ read? v = some a) (byKey vs) as := by
  unfold fieldOr at *
  cases hv : lookup name es with
  | none =>
    rw [hv] at h
    cases h
    exact ⟨[], rfl, by simp [byKey]⟩
  | some v =>
    rw [hv] at h
    obtain ⟨vs, hvs, h⟩ := Option.bind_eq_some_iff.mp h
    obtain ⟨as, has, h⟩ := Option.bind_eq_some_iff.mp h
    cases h
    exact ⟨vs, hvs, forall₂_byKey (mapM_entries_eq_some_iff.mp has)⟩

theorem ofEntries?_eq_some {doc : List (String × Value)} {file : CallFile}
    (h : ofEntries? doc = some file) :
    fieldOr (·.list? HostLiteral.ofValue?) [] "args" doc = some file.args ∧
      fieldOr (map? HostLiteral.ofValue?) [] "kwargs" doc = some file.kwargs := by
  obtain ⟨es, hes, h⟩ := Option.bind_eq_some_iff.mp h
  obtain ⟨overrides, -, h⟩ := Option.bind_eq_some_iff.mp h
  obtain ⟨function, -, h⟩ := Option.bind_eq_some_iff.mp h
  obtain ⟨structs, -, h⟩ := Option.bind_eq_some_iff.mp h
  obtain ⟨args, hargs, h⟩ := Option.bind_eq_some_iff.mp h
  obtain ⟨kwargs, hkwargs, h⟩ := Option.bind_eq_some_iff.mp h
  obtain ⟨options, -, h⟩ := Option.bind_eq_some_iff.mp h
  cases h
  rw [record?_table hes] at hargs hkwargs
  exact ⟨hargs, hkwargs⟩

theorem exists_of_arguments_eq_error {file : CallFile} {e : Error}
    (h : file.arguments layout = .error e) :
    ∃ l ∈ file.args ++ file.kwargs.map (·.2), l.resolve layout = .error e := by
  have hfailure := failure?_eq_some_iff.mpr h
  rw [arguments, failure?_map₂, failure?_mapM, HostLiteral.failure?_resolveEntries,
    Option.or_eq_some_iff] at hfailure
  rcases hfailure with hargs | ⟨-, hkwargs⟩
  · obtain ⟨l, hl, he⟩ := List.exists_of_findSome?_eq_some hargs
    exact ⟨l, List.mem_append_left _ hl, failure?_eq_some_iff.mp he⟩
  · obtain ⟨f, hf, he⟩ := List.exists_of_findSome?_eq_some hkwargs
    exact ⟨f.2, List.mem_append_right _ (List.mem_map_of_mem hf), failure?_eq_some_iff.mp he⟩

/-- The arguments of a file are taken from what its literals are read from. -/
theorem takenFrom_of_reads {file : CallFile} {args : List Value} {kwargs : List (String × Value)}
    (hargs : List.Forall₂ HostLiteral.Reads args file.args)
    (hkwargs : List.Forall₂ (SameEntry HostLiteral.Reads) kwargs file.kwargs) :
    file.TakenFrom args kwargs := by
  have hvalues : List.Forall₂ HostLiteral.Reads (args ++ kwargs.map (·.2))
      (file.args ++ file.kwargs.map (·.2)) := by
    refine List.rel_append hargs ?_
    rw [List.forall₂_map_left_iff, List.forall₂_map_right_iff]
    exact hkwargs.imp fun _ _ hef ↦ hef.2
  constructor
  case resources =>
    intro v hv address es k hes hk
    obtain ⟨l, -, hl⟩ := exists_of_forall₂_left hvalues hv
    have hrel := rel_partAt? (fun _ _ h ↦ h.parts) hl address
    rw [hes] at hrel
    obtain ⟨l', -, hl'⟩ := exists_of_rel_left hrel
    exact ⟨l', hl', (HostLiteral.ofValue?_table_of_kind hk).mp hl'⟩
  case arguments =>
    intro layout a ha
    obtain ⟨xs, hxs, ha⟩ := bind_eq_ok_iff.mp ha
    obtain ⟨ys, hys, ha⟩ := bind_eq_ok_iff.mp ha
    cases ha
    constructor
    · exact forall₂_of_common hargs.flip (mapM_eq_ok_iff.mp hxs) fun l _ v x hv hx ↦
        Denotes.follows ⟨l, hv, hx⟩
    · exact forall₂_of_common hkwargs.flip (HostLiteral.resolveEntries_eq_ok_iff.mp hys)
        fun e _ f g hf hg ↦ ⟨hf.1.trans hg.1, Denotes.follows ⟨e.2, hf.2, hg.2⟩⟩
  case refused =>
    intro layout e he
    obtain ⟨l, hl, hle⟩ := exists_of_arguments_eq_error he
    obtain ⟨address, l', hat, hrefused⟩ := HostLiteral.exists_refused hle
    obtain ⟨v, hv, hread⟩ := exists_of_forall₂_right hvalues hl
    have hrel := rel_partAt? (fun _ _ h ↦ h.parts) hread address
    rw [hat] at hrel
    obtain ⟨w, hw, hwl⟩ := exists_of_rel_right hrel
    exact ⟨v, hv, address, w, l', hw, hwl, hrefused⟩

/-- **No resource ends as a dictionary.** A text either has no reading as a call file, or every
table in it that is used as a host value and has a string for its `kind` is the resource of that
kind. Arguments that are made of the file, for whatever layout, have a value of the same kind in
the place of this table, which carries all that the table says, and no dictionary among them has an
entry that is a string in the document. If no arguments can be made, a resource uses a name that is not known. -/
theorem takenFrom_of_parse? {text : String} {file : CallFile} (h : parse? text = some file) :
    ∃ doc args kwargs, Toml.parse? text = some doc ∧
      fieldOr (·.items?) [] "args" doc = some args ∧
        fieldOr (·.entries?) [] "kwargs" doc = some kwargs ∧
          file.TakenFrom args (byKey kwargs) := by
  obtain ⟨doc, hdoc, h⟩ := Option.bind_eq_some_iff.mp h
  obtain ⟨hargs, hkwargs⟩ := ofEntries?_eq_some h
  obtain ⟨args, hitems, hargs⟩ := exists_items hargs
  obtain ⟨kwargs, hentries, hkwargs⟩ := exists_entries hkwargs
  exact ⟨doc, args, kwargs, hdoc, hitems, hentries, takenFrom_of_reads hargs hkwargs⟩

/-- A file with a texture behind a reference in a dictionary. -/
def texturedPoint : String :=
  "[function]\nname = \"norm\"\n[kwargs.p.x]\nkind = \"value_ref\"\n" ++
    "[kwargs.p.x.value]\nkind = \"texture\"\ntexel = \"float\"\nsize = [4]\n"

/-- The file of the textured point has a reading. -/
theorem takenFrom_texturedPoint : ∃ file doc args kwargs, parse? texturedPoint = some file ∧
    Toml.parse? texturedPoint = some doc ∧ fieldOr (·.items?) [] "args" doc = some args ∧
      fieldOr (·.entries?) [] "kwargs" doc = some kwargs ∧ file.TakenFrom args (byKey kwargs) := by
  have hsome : (parse? texturedPoint).isSome := by decide +kernel
  obtain ⟨file, hfile⟩ := Option.isSome_iff_exists.mp hsome
  obtain ⟨doc, args, kwargs, h⟩ := takenFrom_of_parse? hfile
  exact ⟨file, doc, args, kwargs, hfile, h⟩

-- A texture without a size is no dictionary.
example : parse? "[function]\nname = \"f\"\n[kwargs.x]\nkind = \"texture\"\ntexel = \"float\"\n" =
    none := by
  rw [← Option.isNone_iff_eq_none]
  decide +kernel

end CallFile

end KernelCall
