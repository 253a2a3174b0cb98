import KernelCall.Proofs.Call.Trampoline

/-!
# Signatures as keys

A signature is the key under which the code for a call is kept. It shows the host type of a value,
but not whether the value comes with a gradient, and the code shows that: at the root of each
variable, where the trampoline tells whether it is differentiable, and in backward evaluation at
every node. Besides this, a key stands for one code, as long as the names in it can be read and
denote one type each.
-/

namespace KernelCall

open Code

/-! ## Texts of modules -/

private theorem Code.Block.separated_inj {b b' : Block}
    (h : (if b.isEmpty then "" else "\n" ++ b.text) = if b'.isEmpty then "" else "\n" ++ b'.text) :
    b.text = b'.text := by
  have hempty : ∀ {b : Block}, b.isEmpty → b.text = "" := fun hb ↦ String.isEmpty_iff.mp hb
  have hne : ∀ s : String, "\n" ++ s ≠ "" := by
    intro s hs
    simpa using congrArg String.toList hs
  split_ifs at h with hb hb' hb'
  · rw [hempty hb, hempty hb']
  · exact absurd h.symm (hne _)
  · exact absurd h (hne _)
  · exact (String.append_right_inj _).mp h

private theorem Code.Module.text_eq (m : Module) : ∃ rest, m.text = m.structs.text ++ rest := by
  rw [Module.text]
  simp only [String.append_assoc]
  exact ⟨_, rfl⟩

/-- Modules that differ in nothing but the trampoline show it. -/
private theorem Code.Module.trampoline_text_of_text {m m' : Module} (h : m.text = m'.text)
    (hstructs : m.structs = m'.structs) (hcallData : m.callData = m'.callData) :
    m.trampoline.text = m'.trampoline.text := by
  rw [Module.text, Module.text, hstructs, hcallData] at h
  exact Block.separated_inj ((String.append_right_inj _).mp h)

namespace Call

/-! ## Gradients -/

/-- The calls agree on gradients where code shows them. -/
structure SameGradients (mode : CallMode) (c c' : Call) : Prop where
  roots : Variable.SameDerivatives c.roots c'.roots
  nodes : mode = .backward →
    List.Forall₂ (fun n m ↦ n.differentiable = m.differentiable) c.nodes c'.nodes

instance (mode : CallMode) (c c' : Call) : Decidable (SameGradients mode c c') :=
  decidable_of_iff (Variable.SameDerivatives c.roots c'.roots ∧ (mode = .backward →
      List.Forall₂ (fun n m ↦ n.differentiable = m.differentiable) c.nodes c'.nodes))
    ⟨fun h ↦ ⟨h.1, h.2⟩, fun h ↦ ⟨h.roots, h.nodes⟩⟩

/-- The calls are bound to one function, and their variables are twins in one order. -/
structure Twins (mode : CallMode) (f : Function) (c c' : Call) : Prop where
  bound : c.Bound f
  bound' : c'.Bound f
  roots : List.Forall₂ (Variable.Rivals mode) c.roots c'.roots
  indices : List.Forall₂ (fun v w : Variable ↦ v.node.paramIndex? = w.node.paramIndex?) c.roots
    c'.roots

namespace Twins

variable {mode : CallMode} {f : Function} {c c' : Call} {gridRank : Nat} {m m' : Module}

theorem granted (h : Twins mode f c c') : Variable.GrantedTwins mode c.roots c'.roots :=
  h.roots.imp fun _ _ hvw ↦ hvw.node

theorem map_name (h : Twins mode f c c') {α : Type} (k : String → α) :
    c.roots.map (k ·.name) = c'.roots.map (k ·.name) :=
  map_eq_of_forall₂ (h.granted.imp fun _ _ hvw ↦ congrArg k hvw.1.name)

theorem forall₂_access (h : Twins mode f c c') (hg : SameGradients mode c c') :
    List.Forall₂ (Variable.Related fun n m ↦ n.Twin m ∧ n.access = m.access) c.roots c'.roots := by
  cases mode with
  | forward =>
    refine h.roots.imp fun v w hvw ↦ hvw.imp fun n m ⟨htwin, hn, hm⟩ ↦ ?_
    exact ⟨htwin, htwin.access hn hm nofun⟩
  | backward =>
    refine (Variable.related_and_of_nodes h.roots (hg.nodes rfl)).imp fun v w hvw ↦ ?_
    refine hvw.imp fun n m ⟨⟨htwin, hn, hm⟩, hdiff⟩ ↦ ?_
    exact ⟨htwin, htwin.access hn hm fun _ ↦ hdiff⟩

/-- Twins that agree on gradients have the same module. -/
theorem emit_eq (h : Twins mode f c c') (hg : SameGradients mode c c')
    (hm : c.emit gridRank = .ok m) (hm' : c'.emit gridRank = .ok m') : m = m' := by
  obtain ⟨own, trampoline, hown, htrampoline, rfl⟩ := emit_eq_ok hm
  obtain ⟨own', trampoline', hown', htrampoline', rfl⟩ := emit_eq_ok hm'
  have hsame : own = own' := eq_of_forall₂ (h.forall₂_access hg) hown hown'
    fun _ _ _ _ _ hvw ha hb ↦ Variable.typeCommands_eq_of_twins hvw ha hb
  rw [hsame, h.map_name fieldDeclaration,
    h.bound.trampoline_eq h.bound' h.granted h.indices hg.roots htrampoline htrampoline']

/-- Twins whose modules have the same text agree on gradients. -/
theorem sameGradients_of_text (h : Twins mode f c c') (hm : c.emit gridRank = .ok m)
    (hm' : c'.emit gridRank = .ok m') (heq : m.text = m'.text) : SameGradients mode c c' := by
  obtain ⟨own, trampoline, hown, htrampoline, rfl⟩ := emit_eq_ok hm
  obtain ⟨own', trampoline', hown', htrampoline', rfl⟩ := emit_eq_ok hm'
  cases mode with
  | forward =>
    -- the structs are the same whatever the gradients are, so the trampolines are left
    have haccess : List.Forall₂ (Variable.Related fun n m ↦ n.Twin m ∧ n.access = m.access)
        c.roots c'.roots :=
      h.roots.imp fun _ _ hvw ↦ hvw.imp fun _ _ ⟨htwin, hn, hm⟩ ↦
        ⟨htwin, htwin.access hn hm nofun⟩
    have hsame : own = own' := eq_of_forall₂ haccess hown hown'
      fun _ _ _ _ _ hvw ha hb ↦ Variable.typeCommands_eq_of_twins hvw ha hb
    have htext := Module.trampoline_text_of_text heq (by rw [hsame])
      (by rw [h.map_name fieldDeclaration])
    exact ⟨sameDerivatives_of_trampoline h.bound.function h.bound'.function h.granted htrampoline
      htrampoline' htext, nofun⟩
  | backward =>
    obtain ⟨rest, hrest⟩ := Module.text_eq
      { structs := Block.runAll {} own.flatten
        callData := Block.runAll { indent := 1 } (c.roots.map (fieldDeclaration ·.name))
        trampoline := Block.runAll {} trampoline }
    obtain ⟨rest', hrest'⟩ := Module.text_eq
      { structs := Block.runAll {} own'.flatten
        callData := Block.runAll { indent := 1 } (c'.roots.map (fieldDeclaration ·.name))
        trampoline := Block.runAll {} trampoline' }
    have hpeers := Variable.forall₂_peers_of_written h.roots hown hown'
      (hrest.symm.trans (heq.trans hrest'))
    refine ⟨hpeers.imp fun _ _ hvw ↦ hvw.node.2, fun _ ↦ ?_⟩
    exact rel_flatMap_of_mem hpeers fun _ _ _ _ hvw ↦ (hvw.imp fun _ _ ↦ And.right).forall₂_nodes

end Twins

/-! ## Keys -/

variable {layout : Layout} {settings : Settings} {f : Function} {a a' : Arguments}
  {o o' : Vectorization} {b b' : BuiltCall}

/-- **What a key stands for.** Two calls of one function with one signature, whose names can be read
and denote one type each, have the same code and rank exactly if they agree on gradients. -/
theorem code_eq_iff_of_signature_eq (h : build ⟨layout, .builtin⟩ settings f a o = .ok b)
    (h' : build ⟨layout, .builtin⟩ settings f a' o' = .ok b') (hc : b.call.Legible)
    (hc' : b'.call.Legible) (hsig : b.call.signature = b'.call.signature)
    (htypes : b.call.SameTypes b'.call) :
    b.code = b'.code ∧ b.gridRank = b'.gridRank ↔ b.call.SameGradients settings.mode b'.call := by
  obtain ⟨hrank, hroots⟩ := twins_of_build h h' hc hc' hsig htypes
  have htwins : Twins settings.mode f b.call b'.call := by
    refine ⟨bound_of_build h, bound_of_build h', ?_, hroots.imp fun _ _ ↦ And.right⟩
    refine forall₂_of_mem hroots fun v hv w hw hvw ↦ hvw.1.imp_of_mem fun n hn m hm hnm ↦ ?_
    exact ⟨hnm, granted_of_build h v hv n hn, granted_of_build h' w hw m hm⟩
  obtain ⟨-, -, -, -, m, hm, hcode⟩ := build_eq_ok_iff.mp h
  obtain ⟨-, -, -, -, m', hm', hcode'⟩ := build_eq_ok_iff.mp h'
  rw [← hrank] at hm'
  constructor
  · rintro ⟨hsame, -⟩
    exact htwins.sameGradients_of_text hm hm' (hcode.symm.trans (hsame.trans hcode'))
  · intro hg
    rw [hcode, hcode', htwins.emit_eq hg hm hm']
    exact ⟨rfl, hrank⟩

/-- A point of which one coordinate may ask for its gradient, the other always does. -/
def gradedPoint (needsGrad : Bool) : Arguments where
  args := [.dict [("x", .diffPair 0 0 needsGrad), ("y", .diffPair 0 0 true)]]

/-- In backward evaluation one key stands for two codes. -/
theorem code_ne_of_gradedPoint :
    ∃ b b', build ⟨.standard, .builtin⟩ { mode := .backward } measure (gradedPoint true) {} = .ok b ∧
      build ⟨.standard, .builtin⟩ { mode := .backward } measure (gradedPoint false) {} = .ok b' ∧
        b.call.signature = b'.call.signature ∧ ¬(b.code = b'.code ∧ b.gridRank = b'.gridRank) := by
  refine ⟨_, _, rfl, rfl, rfl, fun h ↦ ?_⟩
  have hcode := h.1
  revert hcode
  decide +kernel

/-- In forward evaluation the same calls have one code. -/
theorem code_eq_of_gradedPoint :
    ∃ b b', build ⟨.standard, .builtin⟩ { mode := .forward } measure (gradedPoint true) {} = .ok b ∧
      build ⟨.standard, .builtin⟩ { mode := .forward } measure (gradedPoint false) {} = .ok b' ∧
        b.code = b'.code ∧ b.gridRank = b'.gridRank := by
  refine ⟨_, _, rfl, rfl, ?_⟩
  refine (@code_eq_iff_of_signature_eq .standard { mode := .forward } measure (gradedPoint true)
    (gradedPoint false) {} {} _ _ rfl rfl ?_ ?_ rfl ?_).mpr ?_
  · decide +kernel
  · decide +kernel
  · decide +kernel
  · decide +kernel

end Call

end KernelCall
