import KernelCall.Proofs.Call.Built
import KernelCall.Proofs.Call.Reading
import KernelCall.Proofs.Call.Seats
import KernelCall.Proofs.Marshall.Alike

/-!
# Twin calls

Two calls of one function with one signature have the same trees, and nodes in the same place carry
values of one type name to the same seat, under pins of one text. If the names denote the same types,
nothing else enters into what is resolved: the nodes receive the same types and have the same
mappings, and the dispatches have the same rank. Gradients do not take part in this.
-/

namespace KernelCall

/-! ## Pins of one effect -/

theorem Pin.axes_or_named (p : Pin) : (∃ l, p = .axes l) ∨ p.isAxes = false := by
  cases p with
  | axes l => exact Or.inl ⟨l, rfl⟩
  | _ => exact Or.inr rfl

/-- The pins have the same effect on every node. -/
inductive Pin.Agree (lookup : Lookup) : Option Pin → Option Pin → Prop where
  | none : Agree lookup none none
  | axes (l : List Nat) : Agree lookup (some (.axes l)) (some (.axes l))
  | named {p q : Pin} (hp : p.isAxes = false) (hq : q.isAxes = false)
    (h : p.namedType? lookup = q.namedType? lookup) : Agree lookup (some p) (some q)

namespace Node

/-- The type that a node is pinned to, if it is pinned to a type. -/
def pinnedType? (n : Node) : Option KernelType :=
  match n.pin? with
  | none | some (.axes _) => none
  | some _ => n.vectorType?

/-- The nodes' names denote the same types: that of the element type, that of the host type where
the value is received whole, and that of a pin to a type. -/
structure SameTypes (n m : Node) : Prop where
  element : n.marshall.elementType = m.marshall.elementType
  whole : n.pin? = some (.axes []) → n.marshall.kernelType = m.marshall.kernelType
  pinned : n.pinnedType? = m.pinnedType?

instance (n m : Node) : Decidable (n.SameTypes m) :=
  decidable_of_iff (n.marshall.elementType = m.marshall.elementType ∧
      (n.pin? = some (.axes []) → n.marshall.kernelType = m.marshall.kernelType) ∧
        n.pinnedType? = m.pinnedType?)
    ⟨fun h ↦ ⟨h.1, h.2.1, h.2.2⟩, fun h ↦ ⟨h.element, h.whole, h.pinned⟩⟩

/-- The nodes carry values to the same seat that are alike, under pins that agree. -/
structure Comparable (lookup : Lookup) (n m : Node) : Prop where
  name : n.name = m.name
  path : n.path = m.path
  target : n.target? = m.target?
  marshall : n.marshall.Alike m.marshall
  whole : n.pin? = some (.axes []) → n.marshall.kernelType = m.marshall.kernelType
  pin : Pin.Agree lookup n.pin? m.pin?

variable {lookup : Lookup} {n m : Node}

section

variable {p : Pin} (hpin : n.pin? = some p) (hp : p.isAxes = false)

include hpin hp

theorem settledType?_of_named : n.settledType? lookup = p.namedType? lookup := by
  rw [settledType?, hpin]
  cases p with
  | axes l => cases hp
  | _ => rfl

theorem settledRank?_of_named : n.settledRank? lookup =
    (p.namedType? lookup).bind fun t ↦ (n.marshall.dimensionality t).toOption := by
  rw [settledRank?, settledType?_of_named hpin hp, hpin]
  cases p with
  | axes l => cases hp
  | _ => rfl

theorem pinnedType?_of_named : n.pinnedType? = n.vectorType? := by
  rw [pinnedType?, hpin]
  cases p with
  | axes l => cases hp
  | _ => rfl

theorem settledMapping_of_named (rank gridRank : Nat) :
    n.settledMapping rank gridRank = .onto (List.range' (gridRank - rank) rank) := by
  rw [settledMapping, hpin]
  cases p with
  | axes l => cases hp
  | _ => rfl

end

namespace Comparable

/-- Nodes that can be compared receive the same type, if both receive one. -/
theorem settledType? (h : n.Comparable lookup m) {t t' : KernelType}
    (ht : n.settledType? lookup = some t) (ht' : m.settledType? lookup = some t') : t = t' := by
  have hpin := h.pin
  generalize hn : n.pin? = p? at hpin
  generalize hm : m.pin? = q? at hpin
  cases hpin with
  | none =>
    rw [Node.settledType?, hn, Option.bind_eq_some_iff] at ht
    rw [Node.settledType?, hm, ← h.target, ← h.path, Option.bind_eq_some_iff] at ht'
    obtain ⟨target, htarget, ht⟩ := ht
    obtain ⟨target', htarget', ht'⟩ := ht'
    cases htarget.symm.trans htarget'
    split at ht
    · next hresult =>
      rw [if_pos hresult] at ht'
      exact Option.some.inj (ht.symm.trans ht')
    · next hresult =>
      rw [if_neg hresult, toOption_eq_some_iff] at ht'
      exact h.marshall.resolve (toOption_eq_some_iff.mp ht) ht'
  | axes l =>
    rw [Node.settledType?, hn, toOption_eq_some_iff] at ht
    rw [Node.settledType?, hm, toOption_eq_some_iff] at ht'
    refine h.marshall.reduce (fun hl ↦ h.whole ?_) ht ht'
    rw [hn, List.length_eq_zero_iff.mp hl]
  | named hp hq hpq =>
    rw [settledType?_of_named hn hp, hpq] at ht
    rw [settledType?_of_named hm hq] at ht'
    exact Option.some.inj (ht.symm.trans ht')

theorem settledRank? (h : n.Comparable lookup m) {t : KernelType} {rank rank' : Nat}
    (ht : n.settledType? lookup = some t) (ht' : m.settledType? lookup = some t)
    (hrank : n.settledRank? lookup = some rank) (hrank' : m.settledRank? lookup = some rank') :
    rank = rank' := by
  have hpin := h.pin
  generalize hn : n.pin? = p? at hpin
  generalize hm : m.pin? = q? at hpin
  cases hpin with
  | none =>
    rw [Node.settledRank?, ht, Option.bind_some, hn, h.marshall.dimensionality] at hrank
    rw [Node.settledRank?, ht', Option.bind_some, hm] at hrank'
    exact Option.some.inj (hrank.symm.trans hrank')
  | axes l =>
    rw [Node.settledRank?, ht, Option.bind_some, hn] at hrank
    rw [Node.settledRank?, ht', Option.bind_some, hm] at hrank'
    exact Option.some.inj (hrank.symm.trans hrank')
  | named hp hq _ =>
    rw [settledRank?_of_named hn hp, ← settledType?_of_named hn hp, ht, Option.bind_some,
      h.marshall.dimensionality] at hrank
    rw [settledRank?_of_named hm hq, ← settledType?_of_named hm hq, ht', Option.bind_some] at hrank'
    exact Option.some.inj (hrank.symm.trans hrank')

theorem settledMapping (h : n.Comparable lookup m) (rank gridRank : Nat) :
    n.settledMapping rank gridRank = m.settledMapping rank gridRank := by
  have hpin := h.pin
  generalize hn : n.pin? = p? at hpin
  generalize hm : m.pin? = q? at hpin
  cases hpin with
  | none | axes l => rw [Node.settledMapping, Node.settledMapping, hn, hm]
  | named hp hq _ => rw [settledMapping_of_named hn hp, settledMapping_of_named hm hq]

theorem settledContainerType? (h : n.Comparable lookup m) {t t' : KernelType}
    (ht : n.settledContainerType? lookup = some t)
    (ht' : m.settledContainerType? lookup = some t') : t = t' := by
  have hpin := h.pin
  rw [Node.settledContainerType?] at ht ht'
  generalize n.pin? = p? at hpin ht
  generalize m.pin? = q? at hpin ht'
  cases hpin with
  | none =>
    rw [← h.target] at ht'
    obtain ⟨target, htarget, ht⟩ := Option.bind_eq_some_iff.mp ht
    obtain ⟨target', htarget', ht'⟩ := Option.bind_eq_some_iff.mp ht'
    cases htarget.symm.trans htarget'
    exact h.marshall.resolve (toOption_eq_some_iff.mp ht) (toOption_eq_some_iff.mp ht')
  | axes l => exact Option.some.inj (ht.symm.trans ht')
  | named _ _ hpq =>
    have hsame := hpq.symm.trans ht
    exact Option.some.inj (hsame.symm.trans ht')

end Comparable

/-! ## From texts to pins -/

/-- A node that is pinned to a type has that type. -/
def HasNamedType (lookup : Lookup) (n : Node) : Prop :=
  ∀ p, n.pin? = some p → p.isAxes = false →
    ∃ t, n.vectorType? = some t ∧ p.namedType? lookup = some t

theorem hasNamedType_of_leaf {settings : Settings} {gridRank : Nat}
    (h : n.settledLeaf? lookup settings gridRank = some n) : n.HasNamedType lookup := by
  intro p hpin hp
  obtain ⟨t, rank, ht, -, -, hn⟩ := settledLeaf?_eq_some_iff.mp h
  rw [settledType?_of_named hpin hp] at ht
  exact ⟨t, congrArg Node.vectorType? hn, ht⟩

theorem hasNamedType_of_container {mode : CallMode} {fields : List Variable}
    (h : n.settledContainer? lookup mode fields = some n) : n.HasNamedType lookup := by
  intro p hpin hp
  obtain ⟨t, ht, hn⟩ := settledContainer?_eq_some_iff.mp h
  rw [settledContainerType?, hpin] at ht
  exact ⟨t, congrArg Node.vectorType? hn, ht⟩

/-- Pins of one text agree if they name the same type. -/
theorem pin_agree (htext : n.pin?.map Pin.text = m.pin?.map Pin.text)
    (hpinned : n.pinnedType? = m.pinnedType?) (hn : n.HasNamedType lookup)
    (hm : m.HasNamedType lookup) : Pin.Agree lookup n.pin? m.pin? := by
  cases hnp : n.pin? with
  | none =>
    cases hmp : m.pin? with
    | none => exact .none
    | some q => rw [hnp, hmp] at htext; cases htext
  | some p =>
    cases hmp : m.pin? with
    | none => rw [hnp, hmp] at htext; cases htext
    | some q =>
      rw [hnp, hmp, Option.map_some, Option.map_some, Option.some.injEq] at htext
      -- only a pin to a type gives the node a pinned type, so that both pins are of one sort
      rcases p.axes_or_named with ⟨l, rfl⟩ | hp <;> rcases q.axes_or_named with ⟨l', rfl⟩ | hq
      · have hl : l = l' := (Mapping.text_inj (r := []) (s := [])
          (congrArg (fun s ↦ s.toList ++ []) htext)).1
        rw [hl]
        exact .axes l'
      · obtain ⟨t, ht, -⟩ := hm q hmp hq
        rw [pinnedType?_of_named hmp hq, ht, pinnedType?, hnp] at hpinned
        cases hpinned
      · obtain ⟨t, ht, -⟩ := hn p hnp hp
        rw [pinnedType?_of_named hnp hp, ht, pinnedType?, hmp] at hpinned
        cases hpinned
      · obtain ⟨t, ht, hpt⟩ := hn p hnp hp
        obtain ⟨t', ht', hqt⟩ := hm q hmp hq
        rw [pinnedType?_of_named hnp hp, pinnedType?_of_named hmp hq, ht, ht'] at hpinned
        exact .named hp hq (hpt.trans (hpinned.trans hqt.symm))

end Node

/-! ## From paths to seats -/

theorem subpath_inj {path a b : String} (h : subpath path a = subpath path b) : a = b := by
  rw [subpath, subpath] at h
  exact (String.append_right_inj _).mp h

/-- The nodes have one text, in one seat. -/
structure Node.SamePlace (n m : Node) : Prop extends n.SameText m where
  name : n.name = m.name
  target : n.target? = m.target?

/-- Under one target, nodes of one path are in one seat. -/
theorem Variable.related_samePlace {v w : Variable} (h : Related Node.SameText v w) {path : String}
    {target : Target} (hv : v.BoundTo path target) (hw : w.BoundTo path target)
    (hname : v.name = w.name) : Related Node.SamePlace v w := by
  induction v generalizing w path target with
  | leaf n =>
    obtain ⟨m, rfl, hm⟩ := related_leaf_iff.mp h
    exact related_leaf ⟨hm, hname, hv.2.trans hw.2.symm⟩
  | dict n fs ih =>
    obtain ⟨m, gs, rfl, hm, hf⟩ := related_dict_iff.mp h
    rw [boundTo_dict_iff] at hv hw
    refine related_dict ⟨hm, hname, hv.1.2.trans hw.1.2.symm⟩ ?_
    refine forall₂_of_mem hf fun f hff g hgg hfg ↦ ?_
    obtain ⟨type, htype, hfbound⟩ := hv.2 f hff
    obtain ⟨type', htype', hgbound⟩ := hw.2 g hgg
    have hpath : subpath path f.name = subpath path g.name :=
      hfbound.node.1.symm.trans (hfg.node.path.trans hgbound.node.1)
    have hfname : f.name = g.name := subpath_inj hpath
    rw [← hfname, htype] at htype'
    cases htype'
    rw [← hfname] at hgbound
    exact ih f hff hfg hfbound hgbound hfname

namespace Call

theorem Bound.path_eq_name {f : Function} {c : Call} (h : c.Bound f) {v : Variable}
    (hv : v ∈ c.roots) : v.path = v.name := by
  obtain ⟨i, hi⟩ := List.mem_iff_getElem?.mp hv
  rcases h.seated hi with ⟨p, -, hseat⟩ | ⟨-, -, target, index?, -, hseat⟩
  · exact hseat.2.2.node.1.trans hseat.1.symm
  · exact hseat.2.2.node.1

/-- The names that denote types in the calls denote the same types, node by node. -/
def SameTypes (c c' : Call) : Prop := List.Forall₂ Node.SameTypes c.nodes c'.nodes

instance (c c' : Call) : Decidable (c.SameTypes c') :=
  inferInstanceAs (Decidable (List.Forall₂ Node.SameTypes c.nodes c'.nodes))

/-- **Signatures tell seats**: bound calls of one function and one signature have their nodes in the
same seats. -/
theorem Bound.samePlace_of_signature {f : Function} {c c' : Call} (h : c.Bound f)
    (h' : c'.Bound f) (hc : c.Legible) (hc' : c'.Legible) (hsig : c.signature = c'.signature) :
    List.Forall₂ (fun v w ↦ Variable.Related Node.SamePlace v w ∧
      v.node.paramIndex? = w.node.paramIndex?) c.roots c'.roots := by
  have hname : c.functionName = c'.functionName := by
    rw [functionName, functionName, h.function, h'.function]
  obtain ⟨hlength, htexts⟩ := List.forall₂_iff_get.mp (related_of_signature hc hc' hname hsig)
  refine List.forall₂_iff_get.mpr ⟨hlength, fun i hi hi' ↦ ?_⟩
  have htext := htexts i hi hi'
  rw [List.get_eq_getElem, List.get_eq_getElem] at htext ⊢
  have hnames : c.roots[i].name = c'.roots[i].name := by
    rw [← h.path_eq_name (List.getElem_mem hi), ← h'.path_eq_name (List.getElem_mem hi')]
    exact htext.node.path
  obtain ⟨target, index?, hv, hw⟩ := h.seated_alike h' (List.getElem?_eq_getElem hi)
    (List.getElem?_eq_getElem hi') hnames
  exact ⟨Variable.related_samePlace htext hv.2.2 hw.2.2 hnames, hv.2.1.trans hw.2.1.symm⟩

end Call

/-! ## From types to mappings -/

/-- The nodes carry values that are alike to the same seat, and agree in all that is resolved. -/
structure Node.Twin (n m : Node) : Prop where
  name : n.name = m.name
  target : n.target? = m.target?
  marshall : n.marshall.Alike m.marshall
  vectorType : n.vectorType? = m.vectorType?
  mapping : n.mapping = m.mapping

namespace Node

variable {lookup : Lookup} {settings : Settings} {gridRank : Nat} {n m : Node}

theorem Comparable.settledRank?_eq (h : n.Comparable lookup m)
    (hn : n.settledLeaf? lookup settings gridRank = some n) {gridRank' : Nat}
    (hm : m.settledLeaf? lookup settings gridRank' = some m) :
    n.settledRank? lookup = m.settledRank? lookup := by
  obtain ⟨t, rank, ht, hrank, -⟩ := settledLeaf?_eq_some_iff.mp hn
  obtain ⟨t', rank', ht', hrank', -⟩ := settledLeaf?_eq_some_iff.mp hm
  cases h.settledType? ht ht'
  rw [hrank, hrank', h.settledRank? ht ht' hrank hrank']

theorem Comparable.twin_of_leaf (h : n.Comparable lookup m)
    (hn : n.settledLeaf? lookup settings gridRank = some n)
    (hm : m.settledLeaf? lookup settings gridRank = some m) : n.Twin m := by
  obtain ⟨t, rank, ht, hrank, -, hn⟩ := settledLeaf?_eq_some_iff.mp hn
  obtain ⟨t', rank', ht', hrank', -, hm⟩ := settledLeaf?_eq_some_iff.mp hm
  cases h.settledType? ht ht'
  cases h.settledRank? ht ht' hrank hrank'
  refine ⟨h.name, h.target, h.marshall, ?_, ?_⟩
  · exact (congrArg vectorType? hn).trans (congrArg vectorType? hm).symm
  · have hmapping := (congrArg mapping hn).trans (h.settledMapping rank gridRank)
    exact hmapping.trans (congrArg mapping hm).symm

theorem Comparable.twin_of_container {mode : CallMode} {fs gs : List Variable}
    (h : n.Comparable lookup m)
    (hn : n.settledContainer? lookup mode fs = some n ∧ n.mapping = .unresolved)
    (hm : m.settledContainer? lookup mode gs = some m ∧ m.mapping = .unresolved) : n.Twin m := by
  obtain ⟨t, ht, hn'⟩ := settledContainer?_eq_some_iff.mp hn.1
  obtain ⟨t', ht', hm'⟩ := settledContainer?_eq_some_iff.mp hm.1
  cases h.settledContainerType? ht ht'
  refine ⟨h.name, h.target, h.marshall, ?_, hn.2.trans hm.2.symm⟩
  exact (congrArg vectorType? hn').trans (congrArg vectorType? hm').symm

end Node

namespace Call

variable {lookup : Lookup} {settings : Settings} {gridRank gridRank' : Nat} {c c' : Call}

theorem Settled.gridRank_eq (hc : c.Settled lookup settings gridRank)
    (hc' : c'.Settled lookup settings gridRank')
    (h : List.Forall₂ (Variable.Related (Node.Comparable lookup)) c.roots c'.roots) :
    gridRank = gridRank' := by
  have hleaves : List.Forall₂ (fun n m ↦ n.settledRank? lookup = m.settledRank? lookup) c.leaves
      c'.leaves := by
    refine rel_flatMap_of_mem h fun v hv w hw hvw ↦ ?_
    refine forall₂_of_mem hvw.forall₂_leaves fun n hn m hm hnm ↦ ?_
    exact hnm.settledRank?_eq (hc.leaf v hv n (Variable.mem_leaves_iff.mp hn))
      (hc'.leaf w hw m (Variable.mem_leaves_iff.mp hm))
  have hrank := hc.rank
  rw [settledRank?, mapM_eq_of_forall₂ hleaves] at hrank
  exact Option.some.inj (hrank.symm.trans hc'.rank)

/-- Nodes that can be compared are twins once they are settled. -/
theorem Settled.twins (hc : c.Settled lookup settings gridRank)
    (hc' : c'.Settled lookup settings gridRank)
    (h : List.Forall₂ (Variable.Related (Node.Comparable lookup)) c.roots c'.roots) :
    List.Forall₂ (Variable.Related Node.Twin) c.roots c'.roots := by
  refine forall₂_of_mem h fun v hv w hw hvw ↦ ?_
  refine hvw.imp_of_parts (fun n hn m hm hnm ↦ ?_) fun n fs hn m gs hm hnm ↦ ?_
  · exact hnm.twin_of_leaf (hc.leaf v hv n hn) (hc'.leaf w hw m hm)
  · exact hnm.twin_of_container (hc.container v hv n fs hn) (hc'.container w hw m gs hm)

/-- Settled nodes in one place whose names denote the same types can be compared: they have been
given the types that their pins name, so that the pins agree. -/
theorem Settled.comparable (hc : c.Settled lookup settings gridRank)
    (hc' : c'.Settled lookup settings gridRank')
    (hregular : ∀ v ∈ c.roots, ∀ n ∈ v.nodes, n.marshall.Regular)
    (hregular' : ∀ w ∈ c'.roots, ∀ m ∈ w.nodes, m.marshall.Regular)
    (h : List.Forall₂ (Variable.Related fun n m ↦ n.SamePlace m ∧ n.SameTypes m) c.roots
      c'.roots) : List.Forall₂ (Variable.Related (Node.Comparable lookup)) c.roots c'.roots := by
  refine forall₂_of_mem h fun v hv w hw hvw ↦ ?_
  have hpair : ∀ n ∈ v.nodes, ∀ m ∈ w.nodes, n.SamePlace m ∧ n.SameTypes m →
      n.HasNamedType lookup → m.HasNamedType lookup → n.Comparable lookup m := by
    intro n hn m hm ⟨hplace, htype⟩ hnamed hnamed'
    refine ⟨hplace.name, hplace.path, hplace.target, ?_, htype.whole, ?_⟩
    · exact Marshall.alike_of_typeName (hregular v hv n hn) (hregular' w hw m hm)
        hplace.typeName htype.element
    · exact Node.pin_agree hplace.pin htype.pinned hnamed hnamed'
  refine hvw.imp_of_parts (fun n hn m hm hnm ↦ ?_) fun n fs hn m gs hm hnm ↦ ?_
  · exact hpair n (Variable.node_mem_nodes hn) m (Variable.node_mem_nodes hm) hnm
      (Node.hasNamedType_of_leaf (hc.leaf v hv n hn))
      (Node.hasNamedType_of_leaf (hc'.leaf w hw m hm))
  · exact hpair n (Variable.node_mem_nodes hn) m (Variable.node_mem_nodes hm) hnm
      (Node.hasNamedType_of_container (hc.container v hv n fs hn).1)
      (Node.hasNamedType_of_container (hc'.container w hw m gs hm).1)

theorem regular_of_build {layout : Layout} {f : Function} {a : Arguments} {o : Vectorization}
    {b : BuiltCall} (h : build ⟨layout, .builtin⟩ settings f a o = .ok b) :
    ∀ v ∈ b.call.roots, ∀ n ∈ v.nodes, n.marshall.Regular := by
  intro v hv n hn
  obtain ⟨x, hx⟩ := carried_of_build h v hv n hn
  exact MarshallRegistry.regular_of_forValue hx

/-- **Twins**: two built calls of one function and one signature agree in all that is resolved, if
the names in them denote the same types. -/
theorem twins_of_build {layout : Layout} {f : Function} {a a' : Arguments} {o o' : Vectorization}
    {b b' : BuiltCall} (h : build ⟨layout, .builtin⟩ settings f a o = .ok b)
    (h' : build ⟨layout, .builtin⟩ settings f a' o' = .ok b') (hc : b.call.Legible)
    (hc' : b'.call.Legible) (hsig : b.call.signature = b'.call.signature)
    (htypes : b.call.SameTypes b'.call) :
    b.gridRank = b'.gridRank ∧ List.Forall₂ (fun v w ↦ Variable.Related Node.Twin v w ∧
      v.node.paramIndex? = w.node.paramIndex?) b.call.roots b'.call.roots := by
  have hplaces := (bound_of_build h).samePlace_of_signature (bound_of_build h') hc hc' hsig
  have hnodes : List.Forall₂ (Variable.Related fun n m ↦ n.SamePlace m ∧ n.SameTypes m)
      b.call.roots b'.call.roots :=
    Variable.related_and_of_nodes (hplaces.imp fun _ _ ↦ And.left) htypes
  have hsettled := settled_of_build h
  have hsettled' := settled_of_build h'
  have hcomparable := hsettled.comparable hsettled' (regular_of_build h) (regular_of_build h') hnodes
  have hrank := hsettled.gridRank_eq hsettled' hcomparable
  rw [← hrank] at hsettled'
  exact ⟨hrank, forall₂_both (hsettled.twins hsettled' hcomparable) (hplaces.imp fun _ _ ↦ And.right)⟩

end Call

end KernelCall
