import KernelCall.Proofs.Call.Accessors
import KernelCall.Proofs.Call.Twins

/-!
# Code of twins

Twins differ in nothing but gradients, and code shows gradients where they are accessed: twins have
the same code if they are accessed alike. The converse holds for each of their nodes, since the code
of a node that is differentiable in backward evaluation goes on in another way than that of a twin
which is not.
-/

namespace KernelCall

open Code

/-! ## Access of twins -/

namespace Node

variable {n m : Node}

theorem Twin.symm (h : n.Twin m) : m.Twin n :=
  ⟨h.name.symm, h.target.symm, h.marshall.symm, h.vectorType.symm, h.mapping.symm⟩

theorem Twin.direction (h : n.Twin m) : n.direction = m.direction := by
  rw [Node.direction, Node.direction, h.target]

/-- Twins are accessed alike in forward evaluation; in backward evaluation, if they agree on
derivatives. -/
theorem Twin.access {mode : CallMode} (h : n.Twin m) (hn : n.Granted mode) (hm : m.Granted mode)
    (hdiff : mode = .backward → n.differentiable = m.differentiable) : n.access = m.access := by
  rw [hn.access, hm.access, h.direction]
  cases mode with
  | forward => cases m.direction <;> rfl
  | backward => rw [hdiff rfl]

theorem Twin.access_primal {mode : CallMode} (h : n.Twin m) (hn : n.Granted mode)
    (hm : m.Granted mode) : n.access.primal = m.access.primal := by
  rw [hn.access, hm.access, h.direction]
  cases mode <;> cases n.differentiable <;> cases m.differentiable <;> cases m.direction <;> rfl

end Node

/-! ## Leaves -/

theorem Storage.ofBuffer_congr {b b' : BufferValue} (h : b.container.Alike b'.container) :
    ofBuffer b = ofBuffer b' := by
  have helement : b.element = b'.element := h.element
  have hdims : b.extents.length = b'.extents.length := h.dims
  funext access
  cases access <;> simp [ofBuffer, helement, hdims]

namespace Node

variable {n m : Node} {d d' : CallData}

theorem Twin.receivedType (h : n.Twin m) : n.receivedType = m.receivedType := by
  rw [Node.receivedType, Node.receivedType, h.vectorType]

/-- Twins that are accessed alike are stored alike. -/
theorem Twin.callData (h : n.Twin m) (haccess : n.access = m.access) (hd : n.callData = .ok d)
    (hd' : m.callData = .ok d') : d = d' := by
  have htype := h.receivedType
  have hmarshall := h.marshall
  rw [Node.callData] at hd hd'
  rw [htype, haccess] at hd
  generalize n.marshall = x at hd hmarshall
  generalize m.marshall = y at hd' hmarshall
  cases hmarshall with
  | value | valueRef | diffPair =>
    rw [hd] at hd'
    exact Except.ok.inj hd'
  | diffBuffer _ _ hcontainer =>
    obtain ⟨t, ht, hd⟩ := bind_eq_ok_iff.mp hd
    obtain ⟨t', ht', hd'⟩ := bind_eq_ok_iff.mp hd'
    rw [ht] at ht'
    cases ht'
    cases hd
    cases hd'
    rw [Storage.ofBuffer_congr hcontainer]
  | buffer hcontainer =>
    simp only [Storage.ofBuffer_congr hcontainer] at hd
    split at hd
    · cases hd
    · next hnone =>
      simp only at hd'
      rw [if_neg hnone] at hd'
      cases hd
      cases hd'
      rfl
  | @texture t t' hcontainer =>
    have htexel : t.texel = t'.texel := hcontainer.element
    have hdims : t.size.length = t'.size.length := hcontainer.dims
    cases hd
    cases hd'
    rw [htexel, hdims]
  | dict => cases hd

/-- What is stored with a gradient is a pair, and so is its twin, with the same primal. -/
theorem Twin.pair (h : n.Twin m) (hprimal : n.access.primal = m.access.primal)
    (hd : n.callData = .ok d) (hd' : m.callData = .ok d')
    (hderivative : d.storage .derivative ≠ .none) :
    ∃ primal t, d = .pair primal (d.storage .derivative) t ∧
      d' = .pair primal (d'.storage .derivative) t := by
  have htype := h.receivedType
  have hmarshall := h.marshall
  rw [Node.callData] at hd hd'
  rw [htype, hprimal] at hd
  generalize n.marshall = x at hd hmarshall
  generalize m.marshall = y at hd' hmarshall
  cases hmarshall with
  | value | valueRef =>
    obtain ⟨t, -, hd⟩ := bind_eq_ok_iff.mp hd
    cases hd
    exact absurd rfl hderivative
  | diffPair =>
    obtain ⟨t, ht, hd⟩ := bind_eq_ok_iff.mp hd
    obtain ⟨t', ht', hd'⟩ := bind_eq_ok_iff.mp hd'
    rw [ht] at ht'
    cases ht'
    cases hd
    cases hd'
    exact ⟨_, _, rfl, rfl⟩
  | diffBuffer _ _ hcontainer =>
    obtain ⟨t, ht, hd⟩ := bind_eq_ok_iff.mp hd
    obtain ⟨t', ht', hd'⟩ := bind_eq_ok_iff.mp hd'
    rw [ht] at ht'
    cases ht'
    cases hd
    cases hd'
    rw [Storage.ofBuffer_congr hcontainer]
    exact ⟨_, _, rfl, rfl⟩
  | buffer =>
    simp only at hd
    split at hd
    · cases hd
    · cases hd
      exact absurd rfl hderivative
  | texture =>
    cases hd
    exact absurd rfl hderivative
  | dict => cases hd

end Node

/-- A pair is written up to the storage of its derivative, and then goes on with that. -/
theorem CallData.written_pair (level : Nat) (name : String) (primal derivative : Storage)
    (t : KernelType) (cs : List Command) : ∃ rest,
    written level ((pair primal derivative t).commands name ++ cs) =
      written level [.openStruct ("_t_" ++ name), .declare primal.text "primal"] ++
        (margin (levelAfter level [.openStruct ("_t_" ++ name), .declare primal.text "primal"]) ++
          (derivative.text ++ rest)) := by
  have hsplit : (pair primal derivative t).commands name ++ cs =
      [.openStruct ("_t_" ++ name), .declare primal.text "primal"] ++
        .declare derivative.text "derivative" ::
          (slotAccessors "primal" primal.text t.name ++
            slotAccessors "derivative" derivative.text t.differentialName ++ [.closeStruct] ++ cs) := by
    simp [commands, DifferentialPair.commands]
  rw [hsplit, written_append, show Command.declare derivative.text "derivative" =
    .statement (derivative.text ++ " " ++ "derivative") from rfl, written_statement]
  simp only [String.append_assoc]
  exact ⟨_, rfl⟩

/-- A pair with a gradient is not written like one without. -/
theorem CallData.written_pair_ne {name : String} {primal derivative : Storage} {t : KernelType}
    (h : derivative ≠ .none) (level : Nat) (cs cs' : List Command) (r s : String) :
    written level ((pair primal derivative t).commands name ++ cs) ++ r ≠
      written level ((pair primal .none t).commands name ++ cs') ++ s := by
  intro heq
  obtain ⟨rest, hrest⟩ := written_pair level name primal derivative t cs
  obtain ⟨rest', hrest'⟩ := written_pair level name primal .none t cs'
  rw [hrest, hrest'] at heq
  simp only [String.append_assoc, String.append_right_inj] at heq
  exact Storage.text_append_ne h _ _ heq

namespace Node

variable {n m : Node} {isRoot : Bool} {cs cs' : List Command}

theorem Twin.leafCommands (h : n.Twin m) (haccess : n.access = m.access)
    (hcs : n.leafCommands isRoot = .ok cs) (hcs' : m.leafCommands isRoot = .ok cs') : cs = cs' := by
  obtain ⟨d, hd, rfl⟩ := leafCommands_eq_ok hcs
  obtain ⟨d', hd', rfl⟩ := leafCommands_eq_ok hcs'
  rw [h.callData haccess hd hd', h.name, h.mapping]

private theorem Twin.leafCommands_written_ne (h : n.Twin m) (hn : n.Granted .backward)
    (hm : m.Granted .backward) (hdiff : n.differentiable = true) (hdiff' : m.differentiable = false)
    (hcs : n.leafCommands isRoot = .ok cs) (hcs' : m.leafCommands isRoot = .ok cs') (level : Nat)
    (r s : String) : written level cs ++ r ≠ written level cs' ++ s := by
  obtain ⟨d, hd, rfl⟩ := leafCommands_eq_ok hcs
  obtain ⟨d', hd', rfl⟩ := leafCommands_eq_ok hcs'
  have hstored : d.storage .derivative ≠ .none :=
    CallData.provides_iff.mp ((provides_derivative_iff hn hd).mpr ⟨rfl, hdiff⟩)
  have hempty : d'.storage .derivative = .none := by
    by_contra hne
    have hprovides := (provides_derivative_iff hm hd').mp (CallData.provides_iff.mpr hne)
    rw [hdiff'] at hprovides
    cases hprovides.2
  obtain ⟨primal, t, hpair, hpair'⟩ := h.pair (h.access_primal hn hm) hd hd' hstored
  rw [hempty] at hpair'
  rw [hpair, hpair', h.name]
  exact CallData.written_pair_ne hstored level _ _ r s

/-- **Leaves show their gradients**: twins that are written alike in backward evaluation agree on
derivatives. -/
theorem Twin.differentiable_of_leafCommands (h : n.Twin m) (hn : n.Granted .backward)
    (hm : m.Granted .backward) (hcs : n.leafCommands isRoot = .ok cs)
    (hcs' : m.leafCommands isRoot = .ok cs') {level : Nat} {r s : String}
    (heq : written level cs ++ r = written level cs' ++ s) :
    n.differentiable = m.differentiable := by
  cases hdiff : n.differentiable <;> cases hdiff' : m.differentiable
  · rfl
  · exact absurd heq.symm (h.symm.leafCommands_written_ne hm hn hdiff' hdiff hcs' hcs level s r)
  · exact absurd heq (h.leafCommands_written_ne hn hm hdiff hdiff' hcs hcs' level r s)
  · rfl

end Node

/-! ## Dictionaries -/

/-- The fields are twins, one by one. -/
abbrev TwinFields (fs gs : List Variable) : Prop :=
  List.Forall₂ (fun f g ↦ f.node.Twin g.node) fs gs

theorem TwinFields.map_name {fs gs : List Variable} (h : TwinFields fs gs) {α : Type}
    (k : String → α) : fs.map (k ·.name) = gs.map (k ·.name) :=
  map_eq_of_forall₂ (h.imp fun _ _ hfg ↦ congrArg k hfg.name)

theorem Node.Twin.vectorType_eq {n m : Node} (h : n.Twin m) {t t' : KernelType}
    (ht : n.vectorType = .ok t) (ht' : m.vectorType = .ok t') : t = t' := by
  have htype := h.vectorType
  rw [Node.vectorType] at ht ht'
  cases hn : n.vectorType? with
  | none => rw [hn] at ht; cases ht
  | some u =>
    rw [← htype, hn] at ht'
    rw [hn] at ht
    exact (Except.ok.inj ht).symm.trans (Except.ok.inj ht')

theorem TwinFields.fieldAccessors {fs gs : List Variable} (h : TwinFields fs gs) {t : KernelType}
    {slot : Slot} {block block' : List Command} (hblock : fieldAccessors t fs slot = .ok block)
    (hblock' : fieldAccessors t gs slot = .ok block') : block = block' := by
  obtain ⟨loads, hloads, hblock⟩ := bind_eq_ok_iff.mp hblock
  obtain ⟨loads', hloads', hblock'⟩ := bind_eq_ok_iff.mp hblock'
  cases hblock
  cases hblock'
  have hstores : fs.map (storeField slot) = gs.map (storeField slot) :=
    h.map_name fun name ↦ accessorCall "store" slot name ("value." ++ name)
  have hsame : loads = loads' := by
    refine eq_of_forall₂ h (mapM_eq_ok_iff.mp hloads) (mapM_eq_ok_iff.mp hloads') ?_
    intro f _ g load load' hfg hload hload'
    obtain ⟨type, htype, hload⟩ := bind_eq_ok_iff.mp hload
    obtain ⟨type', htype', hload'⟩ := bind_eq_ok_iff.mp hload'
    cases hload
    cases hload'
    rw [hfg.vectorType_eq htype htype', show f.name = g.name from hfg.name]
  rw [hstores, hsame]

/-- A line that is left empty does not begin like the end of a struct. -/
private theorem written_blankLine_ne (level : Nat) (cs cs' : List Command) (r s : String) :
    written level (.blankLine :: cs) ++ r ≠ written level (.closeStruct :: cs') ++ s := by
  intro heq
  rw [written_cons, written_cons level .closeStruct] at heq
  have hlist := congrArg String.toList heq
  cases hlevel : level - 1 with
  | zero =>
    simp [written, Block.run, Block.addBlankLine, Block.addLine, Block.shallower, margin, hlevel]
      at hlist
  | succ k =>
    simp [written, Block.run, Block.addBlankLine, Block.addLine, Block.shallower, margin, hlevel,
      List.replicate_succ] at hlist

section

variable {n m : Node} {fs gs : List Variable} {t : KernelType} {accessors accessors' : List (List Command)}

/-- The struct of a differentiable dictionary has accessors that its twin's does not have. -/
private theorem accessors_written_ne (h : n.Twin m) (hn : n.Granted .backward)
    (hm : m.Granted .backward) (hdiff : n.differentiable = true) (hdiff' : m.differentiable = false)
    (hfields : TwinFields fs gs)
    (haccessors : List.Forall₂ (fun slot own ↦ fieldAccessors t fs slot = .ok own) n.accessedSlots
      accessors)
    (haccessors' : List.Forall₂ (fun slot own ↦ fieldAccessors t gs slot = .ok own) m.accessedSlots
      accessors') (level : Nat) (cs cs' : List Command) (r s : String) :
    written level (accessors.flatten ++ .closeStruct :: cs) ++ r ≠
      written level (accessors'.flatten ++ .closeStruct :: cs') ++ s := by
  have hslots : n.accessedSlots = m.accessedSlots ++ [.derivative] := by
    rw [Node.accessedSlots, Node.accessedSlots, hn.access, hm.access, hdiff, hdiff', h.direction]
    cases m.direction <;> rfl
  rw [hslots] at haccessors
  obtain ⟨own, last, hown, hlast, rfl⟩ := exists_append_of_forall₂ haccessors
  have hsame : own = accessors' := by
    refine eq_of_forall₂ (List.forall₂_same.mpr fun slot _ ↦ rfl) hown haccessors' ?_
    rintro slot _ _ block block' rfl hblock hblock'
    exact hfields.fieldAccessors hblock hblock'
  obtain ⟨block, rest, hblock, hrest, rfl⟩ := List.forall₂_cons_left_iff.mp hlast
  cases hrest
  obtain ⟨loads, -, hblock⟩ := bind_eq_ok_iff.mp hblock
  obtain ⟨tail, rfl⟩ : ∃ tail, block = .blankLine :: tail := by
    cases hblock
    exact ⟨_, rfl⟩
  intro heq
  rw [hsame, List.flatten_append, List.flatten_singleton, List.append_assoc, written_append level,
    written_append level, String.append_assoc, String.append_assoc, String.append_right_inj,
    List.cons_append] at heq
  exact written_blankLine_ne _ _ _ _ _ heq

end

/-! ## Variables -/

namespace Variable

variable {gridRank : Nat} {isRoot : Bool} {v w : Variable} {cs cs' : List Command}

/-- **Same access, same code.** -/
theorem typeCommands_eq_of_twins (h : Related (fun n m ↦ n.Twin m ∧ n.access = m.access) v w)
    (hv : v.typeCommands gridRank isRoot = .ok cs)
    (hw : w.typeCommands gridRank isRoot = .ok cs') : cs = cs' := by
  induction v generalizing w isRoot cs cs' with
  | leaf n =>
    obtain ⟨m, rfl, htwin, haccess⟩ := related_leaf_iff.mp h
    exact htwin.leafCommands haccess hv hw
  | dict n fs ih =>
    obtain ⟨m, gs, rfl, ⟨htwin, haccess⟩, hf⟩ := related_dict_iff.mp h
    obtain ⟨t, inner, accessors, ht, hinner, haccessors, rfl⟩ := typeCommands_dict_eq_ok hv
    obtain ⟨t', inner', accessors', ht', hinner', haccessors', rfl⟩ := typeCommands_dict_eq_ok hw
    cases htwin.vectorType_eq ht ht'
    have hfields : TwinFields fs gs := hf.imp fun _ _ hfg ↦ hfg.node.1
    have hsame : inner = inner' :=
      eq_of_forall₂ hf hinner hinner' fun f hf g _ _ hfg ha hb ↦ ih f hf hfg ha hb
    have hslots : n.accessedSlots = m.accessedSlots := by
      rw [Node.accessedSlots, Node.accessedSlots, haccess]
    rw [hslots] at haccessors
    have hblocks : accessors = accessors' := by
      refine eq_of_forall₂ (List.forall₂_same.mpr fun slot _ ↦ rfl) haccessors haccessors' ?_
      rintro slot _ _ block block' rfl hblock hblock'
      exact hfields.fieldAccessors hblock hblock'
    rw [hsame, hblocks, hfields.map_name fieldDeclaration, htwin.name]

/-- Twins whose derivatives are decided in one mode. -/
abbrev Rivals (mode : CallMode) : Variable → Variable → Prop :=
  Related fun n m ↦ n.Twin m ∧ n.Granted mode ∧ m.Granted mode

/-- Twins that agree on derivatives, and so are accessed alike. -/
abbrev Peers : Variable → Variable → Prop :=
  Related fun n m ↦ (n.Twin m ∧ n.access = m.access) ∧ n.differentiable = m.differentiable

private theorem peers_of_flatten {vs ws : List Variable} {own own' : List (List Command)}
    (h : List.Forall₂ (Rivals .backward) vs ws)
    (hvs : List.Forall₂ (fun v own ↦ v.typeCommands gridRank isRoot = .ok own) vs own)
    (hws : List.Forall₂ (fun w own ↦ w.typeCommands gridRank isRoot = .ok own) ws own')
    (hpeers : ∀ v ∈ vs, ∀ (w : Variable) (level : Nat) (cs cs' : List Command) (r s : String),
      Rivals .backward v w → v.typeCommands gridRank isRoot = .ok cs →
        w.typeCommands gridRank isRoot = .ok cs' →
          written level cs ++ r = written level cs' ++ s → Peers v w)
    {level : Nat} {r s : String}
    (heq : written level own.flatten ++ r = written level own'.flatten ++ s) :
    List.Forall₂ Peers vs ws := by
  induction h generalizing own own' level with
  | nil => exact .nil
  | @cons v w vs ws hvw _ ih =>
    obtain ⟨cs, own, hcs, hown, rfl⟩ := List.forall₂_cons_left_iff.mp hvs
    obtain ⟨cs', own', hcs', hown', rfl⟩ := List.forall₂_cons_left_iff.mp hws
    simp only [List.flatten_cons, written_append, String.append_assoc] at heq
    have hpeer := hpeers v List.mem_cons_self w _ _ _ _ _ hvw hcs hcs' heq
    rw [typeCommands_eq_of_twins (hpeer.imp fun _ _ ↦ And.left) hcs hcs',
      String.append_right_inj] at heq
    exact .cons hpeer (ih hown hown' (fun u hu ↦ hpeers u (List.mem_cons_of_mem v hu)) heq)

/-- **Code shows gradients**: twins that are written alike in backward evaluation agree on
derivatives, node by node. -/
theorem peers_of_written (h : Rivals .backward v w) (hv : v.typeCommands gridRank isRoot = .ok cs)
    (hw : w.typeCommands gridRank isRoot = .ok cs') {level : Nat} {r s : String}
    (heq : written level cs ++ r = written level cs' ++ s) : Peers v w := by
  induction v generalizing w isRoot cs cs' level r s with
  | leaf n =>
    obtain ⟨m, rfl, htwin, hn, hm⟩ := related_leaf_iff.mp h
    have hdiff := htwin.differentiable_of_leafCommands hn hm hv hw heq
    exact related_leaf ⟨⟨htwin, htwin.access hn hm fun _ ↦ hdiff⟩, hdiff⟩
  | dict n fs ih =>
    obtain ⟨m, gs, rfl, ⟨htwin, hn, hm⟩, hf⟩ := related_dict_iff.mp h
    obtain ⟨t, inner, accessors, ht, hinner, haccessors, rfl⟩ := typeCommands_dict_eq_ok hv
    obtain ⟨t', inner', accessors', ht', hinner', haccessors', rfl⟩ := typeCommands_dict_eq_ok hw
    cases htwin.vectorType_eq ht ht'
    have hfields : TwinFields fs gs := hf.imp fun _ _ hfg ↦ hfg.node.1
    -- what stands in front of the fields is the same, and what stands behind them comes last
    rw [htwin.name, hfields.map_name fieldDeclaration] at heq
    simp only [List.append_assoc] at heq
    rw [written_append level, written_append level, String.append_assoc, String.append_assoc,
      String.append_right_inj, written_append _ inner.flatten, written_append _ inner'.flatten,
      String.append_assoc, String.append_assoc] at heq
    have hpeers : List.Forall₂ Peers fs gs :=
      peers_of_flatten hf hinner hinner' (fun f hf _ _ _ _ _ _ hfg hcs hcs' heq ↦
        ih f hf hfg hcs hcs' heq) heq
    have hsame : inner = inner' := eq_of_forall₂ hpeers hinner hinner' fun f _ g _ _ hfg ha hb ↦
      typeCommands_eq_of_twins (hfg.imp fun _ _ ↦ And.left) ha hb
    rw [hsame, String.append_right_inj, written_append _ (gs.map _), written_append _ (gs.map _),
      String.append_assoc, String.append_assoc, String.append_right_inj] at heq
    have hdiff : n.differentiable = m.differentiable := by
      cases hdiff : n.differentiable <;> cases hdiff' : m.differentiable
      · rfl
      · exact absurd heq.symm (accessors_written_ne htwin.symm hm hn hdiff' hdiff
          (hfields.flip.imp fun _ _ ↦ Node.Twin.symm) haccessors' haccessors _ _ _ _ _)
      · exact absurd heq (accessors_written_ne htwin hn hm hdiff hdiff' hfields haccessors
          haccessors' _ _ _ _ _)
      · rfl
    exact related_dict ⟨⟨htwin, htwin.access hn hm fun _ ↦ hdiff⟩, hdiff⟩ hpeers

theorem forall₂_peers_of_written {vs ws : List Variable} {own own' : List (List Command)}
    (h : List.Forall₂ (Rivals .backward) vs ws)
    (hvs : List.Forall₂ (fun v own ↦ v.typeCommands gridRank isRoot = .ok own) vs own)
    (hws : List.Forall₂ (fun w own ↦ w.typeCommands gridRank isRoot = .ok own) ws own')
    {level : Nat} {r s : String}
    (heq : written level own.flatten ++ r = written level own'.flatten ++ s) :
    List.Forall₂ Peers vs ws :=
  peers_of_flatten h hvs hws (fun _ _ _ _ _ _ _ _ hvw hcs hcs' heq ↦
    peers_of_written hvw hcs hcs' heq) heq

end Variable

end KernelCall
