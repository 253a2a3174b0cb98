import KernelCall.Proofs.Call.SameCode

/-!
# Trampolines of twins

The statement of a trampoline follows from the names and the positions of the variables alone. Its
head shows in addition which of the variables are differentiable: twins with one head agree on that.
-/

namespace KernelCall

open Code Text

namespace Call

/-! ## Statements -/

/-- The roots that stand for parameters, in the order in which the statement passes them on. -/
def actuals (c : Call) : List Variable :=
  (c.roots.filter (!isReserved ·.name)).mergeSort paramOrder

theorem actuals_perm (c : Call) : c.actuals.Perm (c.roots.filter (!isReserved ·.name)) :=
  List.mergeSort_perm _ _

/-- What the order of the actual parameters depends on. -/
private def seatKey (v : Variable) : String × Option Nat := (v.name, v.node.paramIndex?)

private def keyOrder (k l : String × Option Nat) : Bool :=
  match k.2, l.2 with
  | some i, some j => i ≤ j
  | none, _ => true
  | some _, none => false

private theorem names_actuals_eq (c : Call) : c.actuals.map (·.name) =
    (((c.roots.map seatKey).filter (!isReserved ·.1)).mergeSort keyOrder).map (·.1) := by
  have hsort : c.actuals.map seatKey =
      ((c.roots.filter (!isReserved ·.name)).map seatKey).mergeSort keyOrder :=
    List.map_mergeSort fun _ _ _ _ ↦ rfl
  have hfilter : (c.roots.map seatKey).filter (!isReserved ·.1) =
      (c.roots.filter (!isReserved ·.name)).map seatKey := List.filter_map
  rw [hfilter, ← hsort, List.map_map]
  rfl

theorem names_actuals_congr {c c' : Call} (h : List.Forall₂
    (fun v w : Variable ↦ v.name = w.name ∧ v.node.paramIndex? = w.node.paramIndex?)
    c.roots c'.roots) : c.actuals.map (·.name) = c'.actuals.map (·.name) := by
  have hkeys : c.roots.map seatKey = c'.roots.map seatKey :=
    map_eq_of_forall₂ (h.imp fun _ _ hvw ↦ Prod.ext hvw.1 hvw.2)
  rw [names_actuals_eq, names_actuals_eq, hkeys]

/-- The statement in terms of what it depends on. -/
theorem statement_eq_elim (c : Call) (f : Function) : c.statement f =
    ((c.kwarg? resultKeyword).map (·.name)).elim "" (· ++ " = ") ++
      ((c.kwarg? receiverKeyword).map (·.name)).elim "" (· ++ ".") ++ f.name ++ "(" ++
        ", ".intercalate (c.actuals.map (·.name)) ++ ")" := by
  rw [statement]
  cases c.kwarg? receiverKeyword <;> cases c.kwarg? resultKeyword <;> rfl

/-- A statement names the actual parameters, the receiver and the variable of the result. -/
theorem statement_congr {f : Function} {c c' : Call}
    (hactuals : c.actuals.map (·.name) = c'.actuals.map (·.name))
    (hkwarg : ∀ name, isReserved name →
      (c.kwarg? name).map (·.name) = (c'.kwarg? name).map (·.name)) :
    c.statement f = c'.statement f := by
  rw [statement_eq_elim, statement_eq_elim, hactuals, hkwarg receiverKeyword rfl,
    hkwarg resultKeyword rfl]

/-- **One statement.** Bound calls of one function whose roots have the same names and positions
call the function in the same words. -/
theorem Bound.statement_eq {f : Function} {c c' : Call} (h : c.Bound f) (h' : c'.Bound f)
    (hnames : List.Forall₂ (fun v w : Variable ↦ v.name = w.name) c.roots c'.roots)
    (hindices : List.Forall₂ (fun v w : Variable ↦ v.node.paramIndex? = w.node.paramIndex?) c.roots
      c'.roots) : c.statement f = c'.statement f := by
  apply statement_congr (names_actuals_congr (forall₂_both hnames hindices))
  intro name
  exact h.name_kwarg? h' (map_eq_of_forall₂ hnames)

end Call

/-! ## Heads -/

namespace Variable

variable {mode : CallMode} {v w : Variable} {a b : String}

/-- A formal parameter is marked exactly if it is not differentiable. -/
theorem formal_eq_ok (hv : v.node.Granted mode) (h : v.formal = .ok a) :
    ∃ t, v.node.vectorType = .ok t ∧ a = (if v.node.differentiable then "" else "no_diff ") ++
      (v.node.direction.name ++ " " ++ t.name ++ " " ++ v.name) := by
  obtain ⟨t, ht, h⟩ := bind_eq_ok_iff.mp h
  cases h
  refine ⟨t, ht, ?_⟩
  have hmark : (v.node.noDiff || !v.node.differentiable) = !v.node.differentiable := by
    obtain ⟨u, -, hdiff⟩ := hv.differentiable
    rw [hdiff]
    cases v.node.noDiff <;> simp
  rw [hmark]
  cases v.node.differentiable <;> simp [String.append_assoc]

/-- **Heads show gradients**: twins that are written alike as formal parameters agree on
derivatives. -/
theorem formal_inj (h : v.node.Twin w.node) (hv : v.node.Granted mode) (hw : w.node.Granted mode)
    (ha : v.formal = .ok a) (hb : w.formal = .ok b) {r s : List Char}
    (heq : a.toList ++ r = b.toList ++ s) :
    v.node.differentiable = w.node.differentiable ∧ a = b := by
  obtain ⟨t, ht, rfl⟩ := formal_eq_ok hv ha
  obtain ⟨t', ht', rfl⟩ := formal_eq_ok hw hb
  cases h.vectorType_eq ht ht'
  rw [h.direction, show v.name = w.name from h.name] at heq ⊢
  cases hdiff : v.node.differentiable <;> cases hdiff' : w.node.differentiable
  · exact ⟨rfl, rfl⟩
  · rw [hdiff, hdiff'] at heq
    cases hdirection : w.node.direction <;> simp [hdirection, Direction.name] at heq
  · rw [hdiff, hdiff'] at heq
    cases hdirection : w.node.direction <;> simp [hdirection, Direction.name] at heq
  · exact ⟨rfl, rfl⟩

/-- The roots are twins, and their derivatives are decided in one mode. -/
abbrev GrantedTwins (mode : CallMode) (vs ws : List Variable) : Prop :=
  List.Forall₂ (fun v w : Variable ↦
    v.node.Twin w.node ∧ v.node.Granted mode ∧ w.node.Granted mode) vs ws

/-- The roots agree on derivatives, one by one. -/
abbrev SameDerivatives (vs ws : List Variable) : Prop :=
  List.Forall₂ (fun v w : Variable ↦ v.node.differentiable = w.node.differentiable) vs ws

section

variable {mode : CallMode} {vs ws : List Variable} {as bs : List String}

theorem formals_eq (h : GrantedTwins mode vs ws) (hdiff : SameDerivatives vs ws)
    (ha : List.Forall₂ (fun v a ↦ v.formal = .ok a) vs as)
    (hb : List.Forall₂ (fun w b ↦ w.formal = .ok b) ws bs) : as = bs := by
  refine eq_of_forall₂ (forall₂_both h hdiff) ha hb ?_
  rintro v _ w a b ⟨⟨htwin, hv, hw⟩, hsame⟩ ha hb
  obtain ⟨t, ht, rfl⟩ := formal_eq_ok hv ha
  obtain ⟨t', ht', rfl⟩ := formal_eq_ok hw hb
  cases htwin.vectorType_eq ht ht'
  rw [hsame, htwin.direction, show v.name = w.name from htwin.name]

private theorem sameDerivatives_of_further (h : GrantedTwins mode vs ws)
    (ha : List.Forall₂ (fun v a ↦ v.formal = .ok a) vs as)
    (hb : List.Forall₂ (fun w b ↦ w.formal = .ok b) ws bs) {sep r s : List Char}
    (heq : (as.map String.toList).flatMap (sep ++ ·) ++ r =
      (bs.map String.toList).flatMap (sep ++ ·) ++ s) : SameDerivatives vs ws := by
  induction h generalizing as bs with
  | nil => exact .nil
  | @cons v w vs ws hvw _ ih =>
    obtain ⟨a, as, hva, has, rfl⟩ := List.forall₂_cons_left_iff.mp ha
    obtain ⟨b, bs, hwb, hbs, rfl⟩ := List.forall₂_cons_left_iff.mp hb
    simp only [List.map_cons, List.flatMap_cons, List.append_assoc, List.append_cancel_left_eq]
      at heq
    obtain ⟨hdiff, rfl⟩ := formal_inj hvw.1 hvw.2.1 hvw.2.2 hva hwb heq
    exact .cons hdiff (ih has hbs (List.append_cancel_left heq))

theorem sameDerivatives_of_formals (h : GrantedTwins mode vs ws)
    (ha : List.Forall₂ (fun v a ↦ v.formal = .ok a) vs as)
    (hb : List.Forall₂ (fun w b ↦ w.formal = .ok b) ws bs) {r s : String}
    (heq : ", ".intercalate as ++ r = ", ".intercalate bs ++ s) : SameDerivatives vs ws := by
  have hlist := congrArg String.toList heq
  rw [String.toList_append, String.toList_append, String.toList_intercalate,
    String.toList_intercalate] at hlist
  cases h with
  | nil => exact .nil
  | @cons v w vs ws hvw h =>
    obtain ⟨a, as, hva, has, rfl⟩ := List.forall₂_cons_left_iff.mp ha
    obtain ⟨b, bs, hwb, hbs, rfl⟩ := List.forall₂_cons_left_iff.mp hb
    rw [List.map_cons, List.map_cons, intercalate_cons, intercalate_cons, List.append_assoc,
      List.append_assoc] at hlist
    obtain ⟨hdiff, rfl⟩ := formal_inj hvw.1 hvw.2.1 hvw.2.2 hva hwb hlist
    exact .cons hdiff (sameDerivatives_of_further h has hbs (List.append_cancel_left hlist))

end

end Variable

namespace Call

theorem trampoline_eq_ok {f : Function} {c : Call} {commands : List Command}
    (hf : c.function? = some f) (h : c.trampoline = .ok commands) :
    ∃ formals, List.Forall₂ (fun v a ↦ v.formal = .ok a) c.roots formals ∧
      commands = (if f.differentiable then [.line "[Differentiable]"] else []) ++
        [.line ("void _trampoline(" ++ ", ".intercalate formals ++ ")"), .openBlock,
          .statement (c.statement f), .closeBlock] := by
  rw [trampoline, hf] at h
  obtain ⟨formals, hformals, h⟩ := bind_eq_ok_iff.mp h
  cases h
  exact ⟨formals, mapM_eq_ok_iff.mp hformals, rfl⟩

/-- A trampoline is written up to its formal parameters, and then goes on with them. -/
private theorem written_trampoline (f : Function) (formals : List String)
    (tail : List Command) : ∃ rest,
    written 0 ((if f.differentiable then [.line "[Differentiable]"] else []) ++
      .line ("void _trampoline(" ++ ", ".intercalate formals ++ ")") :: tail) =
        written 0 (if f.differentiable then [.line "[Differentiable]"] else []) ++
          (margin (levelAfter 0 (if f.differentiable then [.line "[Differentiable]"] else [])) ++
            ("void _trampoline(" ++ (", ".intercalate formals ++ rest))) := by
  rw [written_append, written_line]
  simp only [String.append_assoc]
  exact ⟨_, rfl⟩

/-- **Trampolines show gradients.** -/
theorem sameDerivatives_of_trampoline {mode : CallMode} {f : Function} {c c' : Call}
    {commands commands' : List Command} (hf : c.function? = some f) (hf' : c'.function? = some f)
    (h : Variable.GrantedTwins mode c.roots c'.roots) (ht : c.trampoline = .ok commands)
    (ht' : c'.trampoline = .ok commands') (heq : written 0 commands = written 0 commands') :
    Variable.SameDerivatives c.roots c'.roots := by
  obtain ⟨formals, hformals, rfl⟩ := trampoline_eq_ok hf ht
  obtain ⟨formals', hformals', rfl⟩ := trampoline_eq_ok hf' ht'
  obtain ⟨rest, hrest⟩ := written_trampoline f formals _
  obtain ⟨rest', hrest'⟩ := written_trampoline f formals' _
  rw [hrest, hrest', String.append_right_inj, String.append_right_inj,
    String.append_right_inj] at heq
  exact Variable.sameDerivatives_of_formals h hformals hformals' heq

theorem Bound.trampoline_eq {mode : CallMode} {f : Function} {c c' : Call}
    {commands commands' : List Command} (hc : c.Bound f) (hc' : c'.Bound f)
    (h : Variable.GrantedTwins mode c.roots c'.roots)
    (hindices : List.Forall₂ (fun v w : Variable ↦ v.node.paramIndex? = w.node.paramIndex?) c.roots
      c'.roots) (hdiff : Variable.SameDerivatives c.roots c'.roots)
    (ht : c.trampoline = .ok commands) (ht' : c'.trampoline = .ok commands') :
    commands = commands' := by
  obtain ⟨formals, hformals, rfl⟩ := trampoline_eq_ok hc.function ht
  obtain ⟨formals', hformals', rfl⟩ := trampoline_eq_ok hc'.function ht'
  have hnames : List.Forall₂ (fun v w : Variable ↦ v.name = w.name) c.roots c'.roots :=
    h.imp fun _ _ hvw ↦ hvw.1.name
  rw [Variable.formals_eq h hdiff hformals hformals', hc.statement_eq hc' hnames hindices]

end Call

end KernelCall
