import KernelCall.Toml.Record
import KernelCall.Proofs.Progress

/-!
# Entries and fields

Lists of entries are compared key by key. Ordering two of them by their keys keeps what
corresponds together, because only the keys decide on the order. Also what a record and its fields
are read from.
-/

namespace KernelCall.Toml

/-! ## Entries -/

/-- Entries with the same key and related values. -/
def SameEntry {α β : Type} (R : α → β → Prop) (e : String × α) (f : String × β) : Prop :=
  e.1 = f.1 ∧ R e.2 f.2

theorem mem_of_lookup {α : Type} {key : String} {a : α} {es : List (String × α)}
    (h : lookup key es = some a) : (key, a) ∈ es := by
  obtain ⟨e, he, rfl⟩ := Option.map_eq_some_iff.mp h
  have hkey : e.1 = key := by simpa using List.find?_some he
  rw [← hkey]
  exact List.mem_of_find?_eq_some he

theorem lookup_map {α β : Type} (f : α → β) (key : String) (es : List (String × α)) :
    lookup key (es.map fun e ↦ (e.1, f e.2)) = (lookup key es).map f := by
  rw [lookup, lookup, List.find?_map, Option.map_map, Option.map_map]
  rfl

theorem byKey_map {α γ : Type} {f : γ → String × α} {key : γ → String} {zs : List γ}
    (hkey : ∀ z ∈ zs, (f z).1 = key z) :
    byKey (zs.map f) = (zs.mergeSort fun y z ↦ !decide (key z < key y)).map f := by
  refine (List.map_mergeSort fun y hy z hz ↦ ?_).symm
  rw [hkey y hy, hkey z hz]

/-- Entries that correspond still do when both lists are ordered by their keys. -/
theorem forall₂_byKey {α β : Type} {R : α → β → Prop} {es : List (String × α)}
    {fs : List (String × β)} (h : List.Forall₂ (SameEntry R) es fs) :
    List.Forall₂ (SameEntry R) (byKey es) (byKey fs) := by
  obtain ⟨zs, rfl, rfl, hpairs⟩ : ∃ zs : List ((String × α) × String × β),
      zs.map Prod.fst = es ∧ zs.map Prod.snd = fs ∧ ∀ z ∈ zs, SameEntry R z.1 z.2 := by
    refine ⟨es.zip fs, ?_, ?_, fun z hz ↦ (List.forall₂_iff_zip.mp h).2 hz⟩
    · exact List.map_fst_zip (Nat.le_of_eq h.length_eq)
    · exact List.map_snd_zip (Nat.le_of_eq h.length_eq.symm)
  -- The pairs are ordered once, by the key that both entries of a pair have.
  rw [byKey_map fun _ _ ↦ rfl, byKey_map fun z hz ↦ (hpairs z hz).1.symm,
    List.forall₂_map_left_iff, List.forall₂_map_right_iff, List.forall₂_same]
  exact fun z hz ↦ hpairs z (List.mem_mergeSort.mp hz)

theorem mapM_entries_eq_some_iff {α β : Type} {read? : α → Option β} {es : List (String × α)}
    {fs : List (String × β)} : (es.mapM fun (key, a) ↦ (read? a).map (key, ·)) = some fs ↔
      List.Forall₂ (SameEntry fun a b ↦ read? a = some b) es fs := by
  rw [mapM_eq_some_iff]
  refine iff_of_eq (congrArg (List.Forall₂ · es fs) ?_)
  funext ⟨key, a⟩ ⟨key', b⟩
  simp [SameEntry, and_comm]

/-! ## Fields -/

theorem isSome_of_field? {α : Type} {read? : Value → Option α} {name : String}
    {es : List (String × Value)} {a : α} (h : field? read? name es = some a) :
    (lookup name es).isSome := by
  obtain ⟨v, hv, -⟩ := Option.bind_eq_some_iff.mp h
  rw [hv, Option.isSome_some]

theorem record?_table {fs : List Field} {es es' : List (String × Value)}
    (h : (Value.table es).record? fs = some es') : es' = es := by
  obtain ⟨es'', hopen, h⟩ := Option.bind_eq_some_iff.mp h
  split at h
  · cases h
    have hopen : (if Field.arePresent fs es then some es else none) = some es' := hopen
    split at hopen
    · exact (Option.some.inj hopen).symm
    · cases hopen
  · cases h

theorem exists_items {α : Type} {read? : Value → Option α} {name : String}
    {es : List (String × Value)} {as : List α} (h : fieldOr (·.list? read?) [] name es = some as) :
    ∃ vs, fieldOr (·.items?) [] name es = some vs ∧
      List.Forall₂ (fun v a ↦ read? v = some a) vs as := by
  unfold fieldOr at *
  cases hv : lookup name es with
  | none =>
    rw [hv] at h
    cases h
    exact ⟨[], rfl, .nil⟩
  | some v =>
    rw [hv] at h
    obtain ⟨vs, hvs, h⟩ := Option.bind_eq_some_iff.mp h
    exact ⟨vs, hvs, mapM_eq_some_iff.mp h⟩

end KernelCall.Toml
