import KernelCall.Proofs.Call.Outline
import KernelCall.Proofs.Code.Shift

/-!
# Variables at another level

The code for a variable is well bracketed and does not depend on where it stands: on any level it
consists of the rows that it has at the margin, shifted. It takes that names and names of types are
words, since a name may make up most of a row.
-/

namespace KernelCall

open Code Text

variable {name type target : String}

/-- The node is resolved, and its name and those of its types are words. -/
structure Node.Worded (n : Node) : Prop where
  name : Word n.name
  received : ∃ t ∈ n.vectorType?, Word t.name
  stored : Word n.marshall.elementType.name

instance : DecidablePred Node.Worded := fun n ↦
  decidable_of_iff (Word n.name ∧ (∃ t ∈ n.vectorType?, Word t.name) ∧
    Word n.marshall.elementType.name)
    ⟨fun h ↦ ⟨h.1, h.2.1, h.2.2⟩, fun h ↦ ⟨h.name, h.received, h.stored⟩⟩

/-! ## Rows of variables -/

theorem word_typeName (h : Word name) : Word ("_t_" ++ name) := by
  have hword : Word ("_t_" ++ name ++ "") := h.wrap (by decide) (by decide)
  rwa [String.append_empty] at hword

theorem tidy_declare (htype : Word type) (hname : Word name) :
    Code.Tidy (type ++ " " ++ name ++ ";") := by
  have hink := htype.ink
  have hink' := hname.ink
  have hend : ink ";" = 1 := by decide
  constructor
  · simp only [oneLine_append]
    exact ⟨⟨⟨htype.oneLine, by decide⟩, hname.oneLine⟩, by decide⟩
  · simp only [ink_append]
    omega

theorem tidy_mappingConstant (hname : Word name) (axes : List Nat) :
    (mappingConstant name axes).Tidy := by
  cases axes with
  | nil =>
    have hhead : Code.Tidy "static const int _m_" := ⟨by decide, by decide⟩
    exact ((hhead.append hname.oneLine).append (by decide)).append (by decide)
  | cons k ks =>
    have hhead : Code.Tidy "static const int[] _m_" := ⟨by decide, by decide⟩
    have haxes : OneLine (",".intercalate ((k :: ks).map toString)) := by
      apply oneLine_intercalate (by decide)
      intro s hs
      obtain ⟨n, -, rfl⟩ := List.mem_map.mp hs
      exact oneLine_toString n
    exact ((((hhead.append hname.oneLine).append (by decide)).append haxes).append
      (by decide)).append (by decide)

theorem tidy_accessor {verb slot direction : String} {body : List Statement} (hverb : OneLine verb)
    (hslot : OneLine slot) (hdirection : OneLine direction) (htarget : OneLine target)
    (hbody : ∀ s ∈ body, s.command.Tidy) :
    ∀ c ∈ (accessor verb slot direction target body).commands, c.Tidy := by
  have hformals : ∀ p ∈ [Formal.text ⟨"IContext", "context"⟩,
      Formal.text ⟨direction ++ " " ++ target, "value"⟩], OneLine p := by
    simp only [List.forall_mem_cons, Formal.text, oneLine_append]
    exact ⟨⟨⟨by decide, by decide⟩, by decide⟩,
      ⟨⟨⟨⟨hdirection, by decide⟩, htarget⟩, by decide⟩, by decide⟩, List.forall_mem_nil _⟩
  have hhead : Code.Tidy "void " := ⟨by decide, by decide⟩
  have hname : OneLine (verb ++ "_" ++ slot) :=
    oneLine_append.mpr ⟨oneLine_append.mpr ⟨hverb, by decide⟩, hslot⟩
  rw [accessor, Declaration.commands]
  simp only [List.forall_mem_append, List.forall_mem_cons, List.forall_mem_map]
  refine ⟨⟨⟨?_, trivial, List.forall_mem_nil _⟩, hbody⟩, trivial, List.forall_mem_nil _⟩
  exact (((hhead.append hname).append (by decide)).append
    (oneLine_intercalate (by decide) hformals)).append (by decide)

theorem oneLine_slot (slot : Slot) : OneLine slot.name := by
  cases slot <;> decide

theorem tidy_fieldAccess {verb argument : String} (hverb : OneLine verb) (slot : Slot)
    (hname : OneLine name) (hargument : OneLine argument) :
    (fieldAccess verb slot name argument).command.Tidy := by
  have hhead : Code.Tidy "this." := ⟨by decide, by decide⟩
  have hcall := (((hhead.append hname).append (by decide : OneLine ".")).append hverb).append
    (by decide : OneLine "_") |>.append (oneLine_slot slot)
  exact ((((((hcall.append (by decide)).append hname).append (by decide)).append
    hargument).append (by decide)).append (by decide))

/-! ## Leaves -/

/-- The type of what is in a storage. -/
def Storage.element? : Storage → Option KernelType
  | none => .none
  | value e | valueRef e | buffer e _ _ | texture e _ _ => some e

theorem Storage.word_text {s : Storage} (h : ∀ e ∈ s.element?, Word e.name) : Word s.text := by
  have hmark : ∀ w, OneLine (KernelType.accessMark w) := by decide
  cases s with
  | none => exact ⟨by decide, by decide⟩
  | value e => exact (h e rfl).wrap (by decide) (by decide)
  | valueRef e => exact (h e rfl).wrap (by decide) (by decide)
  | buffer e n w =>
    rw [text, String.append_assoc, String.append_assoc]
    refine (h e rfl).wrap (oneLine_append.mpr ⟨hmark w, by decide⟩) ?_
    exact oneLine_append.mpr ⟨by decide, oneLine_append.mpr ⟨oneLine_toString n, by decide⟩⟩
  | texture e n w =>
    refine (h e rfl).wrap ?_ (by decide)
    simp only [oneLine_append]
    exact ⟨⟨⟨hmark w, by decide⟩, oneLine_toString n⟩, by decide⟩

theorem Storage.eq_of_mem_ofValue {e t : KernelType} {a : Access}
    (h : t ∈ (Storage.ofValue e a).element?) : t = e := by
  cases a <;> simp_all [ofValue, element?]

theorem Storage.eq_of_mem_ofBuffer {b : BufferValue} {t : KernelType} {a : Access}
    (h : t ∈ (Storage.ofBuffer b a).element?) : t = b.element := by
  cases a <;> simp_all [ofBuffer, element?]

/-- The types that a leaf is stored with. -/
def CallData.types : CallData → List KernelType
  | single s => s.element?.toList
  | pair primal derivative target =>
    target :: (primal.element?.toList ++ derivative.element?.toList)

/-- A pair of storages of one type has this type besides its target. -/
theorem CallData.mem_types_pair {primal derivative : Storage} {target e t : KernelType}
    (hprimal : ∀ u ∈ primal.element?, u = e) (hderivative : ∀ u ∈ derivative.element?, u = e)
    (h : t ∈ (pair primal derivative target).types) : t = target ∨ t = e := by
  rw [types, List.mem_cons, List.mem_append, Option.mem_toList, Option.mem_toList] at h
  exact h.imp_right fun h ↦ h.elim (hprimal t) (hderivative t)

/-- A leaf is stored with the type that it is received as and the type of its elements. -/
theorem Node.mem_types_of_callData {n : Node} {d : CallData} {t : KernelType}
    (h : n.callData = .ok d) (ht : t ∈ d.types) :
    n.receivedType = .ok t ∨ t = n.marshall.elementType := by
  rw [callData] at h
  -- one case a host type; buffers without a gradient, and textures, are stored as they are
  split at h
  · obtain ⟨u, hu, h⟩ := bind_eq_ok_iff.mp h
    cases h
    rw [List.mem_singleton.mp ht]
    exact Or.inl hu
  · obtain ⟨u, hu, h⟩ := bind_eq_ok_iff.mp h
    cases h
    rw [Storage.eq_of_mem_ofValue (Option.mem_toList.mp ht)]
    exact Or.inl hu
  · next hm =>
    obtain ⟨u, hu, h⟩ := bind_eq_ok_iff.mp h
    cases h
    rcases CallData.mem_types_pair (fun _ ↦ Storage.eq_of_mem_ofValue)
      (fun _ ↦ Storage.eq_of_mem_ofValue) ht with rfl | rfl
    · exact Or.inl hu
    · exact Or.inr (hm ▸ rfl)
  · next hm =>
    split at h
    · cases h
    · cases h
      exact Or.inr (hm ▸ Storage.eq_of_mem_ofBuffer (Option.mem_toList.mp ht))
  · next hm =>
    obtain ⟨u, hu, h⟩ := bind_eq_ok_iff.mp h
    cases h
    rcases CallData.mem_types_pair (fun _ ↦ Storage.eq_of_mem_ofBuffer)
      (fun _ ↦ Storage.eq_of_mem_ofBuffer) ht with rfl | rfl
    · exact Or.inl hu
    · exact Or.inr (hm ▸ rfl)
  · next hm =>
    cases h
    exact Or.inr (hm ▸ List.mem_singleton.mp ht)
  · cases h

theorem Node.Worded.word_of_callData {n : Node} {d : CallData} (hn : n.Worded)
    (h : n.callData = .ok d) : ∀ t ∈ d.types, Word t.name := by
  intro t ht
  rcases Node.mem_types_of_callData h ht with hreceived | rfl
  · obtain ⟨u, hu, hword⟩ := hn.received
    rw [Node.receivedType, hu] at hreceived
    cases hreceived
    exact hword
  · exact hn.stored

theorem tidy_slotOutline {storage : String} (slot : Slot) (htarget : OneLine target) :
    ∀ c ∈ (slotOutline slot.name storage target).flatMap Declaration.commands, c.Tidy := by
  have hhead : Code.Tidy ("this." ++ slot.name) :=
    Tidy.append ⟨by decide, by decide⟩ (oneLine_slot slot)
  have hcall : ∀ access, OneLine access →
      ∀ s ∈ [Statement.evaluate ("this." ++ slot.name ++ access)], s.command.Tidy := by
    intro access haccess
    exact List.forall_mem_singleton.mpr ((hhead.append haccess).append (by decide))
  rw [slotOutline]
  split
  · exact List.forall_mem_nil _
  · simp only [List.flatMap_cons, List.flatMap_nil, List.forall_mem_append]
    exact ⟨List.forall_mem_singleton.mpr trivial,
      tidy_accessor (by decide) (oneLine_slot slot) (by decide) htarget (hcall _ (by decide)),
      List.forall_mem_singleton.mpr trivial,
      tidy_accessor (by decide) (oneLine_slot slot) (by decide) htarget (hcall _ (by decide)),
      List.forall_mem_nil _⟩

theorem CallData.tidy_outline {d : CallData} (hname : Word name) (h : ∀ t ∈ d.types, Word t.name) :
    ∀ c ∈ (d.outline name).commands, c.Tidy := by
  cases d with
  | single s =>
    have hs : Word s.text := Storage.word_text fun e he ↦ h e (Option.mem_toList.mpr he)
    have hhead : Code.Tidy "typealias " := ⟨by decide, by decide⟩
    exact List.forall_mem_singleton.mpr ((((hhead.append (word_typeName hname).oneLine).append
      (by decide)).append hs.oneLine).append (by decide))
  | pair primal derivative target =>
    rw [types, List.forall_mem_cons, List.forall_mem_append] at h
    obtain ⟨htarget, hprimal, hderivative⟩ := h
    have hprimal : Word primal.text :=
      Storage.word_text fun e he ↦ hprimal e (Option.mem_toList.mpr he)
    have hderivative : Word derivative.text :=
      Storage.word_text fun e he ↦ hderivative e (Option.mem_toList.mpr he)
    have hdifferential : OneLine target.differentialName :=
      oneLine_append.mpr ⟨htarget.oneLine, by decide⟩
    rw [outline, Declaration.commands_struct]
    simp only [List.flatMap_append, List.flatMap_cons, List.flatMap_nil, List.forall_mem_append,
      List.forall_mem_singleton]
    refine ⟨⟨(word_typeName hname).oneLine, ⟨⟨?_, ?_, List.forall_mem_nil _⟩,
      tidy_slotOutline .primal htarget.oneLine⟩, tidy_slotOutline .derivative hdifferential⟩,
        trivial⟩
    · exact List.forall_mem_singleton.mpr (tidy_declare hprimal ⟨by decide, by decide⟩)
    · exact List.forall_mem_singleton.mpr (tidy_declare hderivative ⟨by decide, by decide⟩)

/-! ## Variables -/

theorem Node.Worded.word_slotType {n : Node} (hn : n.Worded) (slot : Slot) :
    Word (n.slotType slot) := by
  obtain ⟨t, ht, hword⟩ := hn.received
  rw [Node.slotType, Option.mem_def.mp ht, Option.elim_some]
  cases slot with
  | primal => exact hword
  | derivative =>
    have hdifferential : Word ("" ++ t.name ++ ".Differential") := hword.wrap (by decide) (by decide)
    rwa [String.empty_append] at hdifferential

theorem tidy_fieldOutline {n : Node} {fs : List Variable} (hn : n.Worded)
    (hfs : ∀ f ∈ fs, f.node.Worded) (slot : Slot) :
    ∀ c ∈ (fieldOutline n fs slot).flatMap Declaration.commands, c.Tidy := by
  have hblank : ∀ c ∈ Declaration.blankLine.commands, c.Tidy :=
    List.forall_mem_singleton.mpr trivial
  have hload : ∀ s ∈ fs.flatMap fun v ↦ [Statement.declare (v.node.slotType slot) v.name,
      fieldAccess "load" slot v.name v.name, .assign ("value." ++ v.name) v.name],
        s.command.Tidy := by
    rw [List.forall_mem_flatMap]
    intro f hf
    have hname := (hfs f hf).name
    have hvalue : Code.Tidy ("value." ++ f.name) :=
      Tidy.append ⟨by decide, by decide⟩ hname.oneLine
    simp only [List.forall_mem_cons]
    refine ⟨tidy_declare ((hfs f hf).word_slotType slot) hname,
      tidy_fieldAccess (by decide) slot hname.oneLine hname.oneLine, ?_, List.forall_mem_nil _⟩
    exact ((hvalue.append (by decide)).append hname.oneLine).append (by decide)
  have hstore : ∀ s ∈ fs.map fun v ↦ fieldAccess "store" slot v.name ("value." ++ v.name),
      s.command.Tidy := by
    rw [List.forall_mem_map]
    intro f hf
    have hname := (hfs f hf).name.oneLine
    exact tidy_fieldAccess (by decide) slot hname (oneLine_append.mpr ⟨by decide, hname⟩)
  simp only [fieldOutline, List.flatMap_cons, List.flatMap_nil, List.forall_mem_append]
  exact ⟨hblank, hblank, tidy_accessor (by decide) (oneLine_slot slot) (by decide)
    (hn.word_slotType slot).oneLine hload, hblank, tidy_accessor (by decide) (oneLine_slot slot)
      (by decide) (hn.word_slotType slot).oneLine hstore, List.forall_mem_nil _⟩

namespace Variable

/-- The code for a variable has tidy rows. -/
theorem tidy_outline {v : Variable} (gridRank : Nat) (hv : ∀ n ∈ v.nodes, n.Worded) :
    ∀ c ∈ (v.outline gridRank).flatMap Declaration.commands, c.Tidy := by
  induction v with
  | leaf n =>
    have hn := hv n (List.mem_singleton_self n)
    rw [outline]
    cases hd : n.callData with
    | error e => exact List.forall_mem_nil _
    | ok d =>
      simp only [List.flatMap_cons, List.flatMap_nil, List.forall_mem_append]
      exact ⟨CallData.tidy_outline hn.name (hn.word_of_callData hd),
        List.forall_mem_singleton.mpr (tidy_mappingConstant hn.name _), List.forall_mem_nil _⟩
  | dict n fs ih =>
    have hn := hv n (node_mem_nodes_dict n fs)
    have hroots : ∀ f ∈ fs, f.node.Worded := fun f hf ↦
      hv _ (mem_nodes_of_field hf (node_mem_nodes (self_mem_parts f)))
    have hfields : ∀ c ∈ (fs.flatMap (outline gridRank)).flatMap Declaration.commands, c.Tidy := by
      rw [List.flatMap_assoc, List.forall_mem_flatMap]
      exact fun f hf ↦ ih f hf fun m hm ↦ hv m (mem_nodes_of_field hf hm)
    have hstored : ∀ c ∈ (fs.map (storedField ·.name)).flatMap Declaration.commands, c.Tidy := by
      rw [List.flatMap_map, List.forall_mem_flatMap]
      intro f hf
      have hname := (hroots f hf).name
      exact List.forall_mem_singleton.mpr (tidy_declare (word_typeName hname) hname)
    have hslots : ∀ c ∈ (n.accessedSlots.flatMap (fieldOutline n fs)).flatMap Declaration.commands,
        c.Tidy := by
      rw [List.flatMap_assoc, List.forall_mem_flatMap]
      exact fun slot _ ↦ tidy_fieldOutline hn hroots slot
    rw [outline_dict, List.flatMap_cons, Declaration.commands_struct]
    simp only [List.flatMap_append, List.flatMap_cons, List.flatMap_nil, List.forall_mem_append,
      List.forall_mem_singleton, List.append_nil]
    exact ⟨⟨⟨(word_typeName hn.name).oneLine, ⟨hfields, hstored⟩, hslots⟩, trivial⟩,
      List.forall_mem_singleton.mpr (tidy_mappingConstant hn.name _)⟩

/-- **Code can be moved.** -/
theorem exists_lays {gridRank : Nat} {isRoot : Bool} {v : Variable} {commands : List Command}
    (hv : ∀ n ∈ v.nodes, n.Worded) (h : v.typeCommands gridRank isRoot = .ok commands) :
    ∃ rows, Lays commands rows := by
  rw [typeCommands_eq h]
  refine Lays.exists_flatMap fun d hd ↦ d.exists_lays fun c hc ↦ ?_
  exact tidy_outline gridRank hv c (List.mem_flatMap.mpr ⟨d, hd, hc⟩)

/-- **Emitted code is well bracketed and can stand anywhere.** Let the nodes of a variable be resolved,
and their names and those of their types be words. If the variable is added to a module, it can be
added to an empty module too. The level is the same before and after. What is added are the rows of
the code in the empty module, each shifted by four columns a level unless it is empty. On these rows
every brace that opens is closed again; and adding the code in the empty module line by line has the
same effect. -/
theorem emit_shift {gridRank : Nat} {isRoot : Bool} {v : Variable} {m m' : Module}
    (hv : ∀ n ∈ v.nodes, n.Worded) (h : v.emit gridRank isRoot m = .ok m') :
    ∃ flat, v.emit gridRank isRoot {} = .ok flat ∧
      m'.structs.indent = m.structs.indent ∧
      Bracketed m.structs.indent ((rows flat.structs.text).map (shift m.structs.indent)) ∧
      m'.structs.text = m.structs.text ++
        unlines ((rows flat.structs.text).map (shift m.structs.indent)) ∧
      m'.structs = m.structs.run (.code flat.structs.text) := by
  obtain ⟨commands, hcommands, h⟩ := bind_eq_ok_iff.mp h
  cases h
  obtain ⟨rows, hrows⟩ := exists_lays hv hcommands
  let flat : Module := {
    structs := Block.runAll {} commands
    callData := if isRoot then Block.run { indent := 1 } (fieldDeclaration v.name)
      else { indent := 1 } }
  have hflat : v.emit gridRank isRoot {} = .ok flat :=
    bind_eq_ok_iff.mpr ⟨commands, hcommands, rfl⟩
  have htext : Text.rows flat.structs.text = rows := hrows.rows_written
  have hbracketed := hrows.bracketed.shift m.structs.indent
  rw [Nat.zero_add] at hbracketed
  have hrun : m.structs.runAll commands = {
      text := m.structs.text ++ unlines (rows.map (shift m.structs.indent))
      indent := m.structs.indent } := by
    rw [Block.runAll_eq, hrows.level, hrows.written]
  refine ⟨flat, hflat, ?_, ?_, ?_, (hrows.run_code m.structs).symm⟩
  · exact congrArg (·.indent) hrun
  · rw [htext]
    exact hbracketed
  · rw [htext]
    exact congrArg (·.text) hrun

/-- A resolved point. Its first coordinate comes with a gradient. -/
def tracedPoint : Variable :=
  let point : KernelType := .struct "Point" [("x", .scalar .float), ("y", .scalar .float)] true
  .dict { name := "p", path := "p", marshall := .dict, vectorType? := some point,
          access := ⟨.read, .write⟩ }
    [.leaf { name := "x", path := "p.x", marshall := .diffPair (.scalar .float) true,
             vectorType? := some (.scalar .float), access := ⟨.read, .write⟩ },
     .leaf { name := "y", path := "p.y", marshall := .value (.scalar .float),
             vectorType? := some (.scalar .float), access := ⟨.read, .none⟩ }]

/-- The code for the point can stand two levels deep. -/
theorem emit_shift_tracedPoint : ∃ m', tracedPoint.emit 1 true { structs := { indent := 2 } } =
    .ok m' ∧ ∃ flat, tracedPoint.emit 1 true {} = .ok flat ∧
      m'.structs.indent = 2 ∧
      Bracketed 2 ((rows flat.structs.text).map (shift 2)) ∧
      m'.structs.text = "" ++ unlines ((rows flat.structs.text).map (shift 2)) ∧
      m'.structs = Block.run { indent := 2 } (.code flat.structs.text) :=
  have hworded : ∀ n ∈ tracedPoint.nodes, n.Worded := by decide
  ⟨_, rfl, emit_shift hworded rfl⟩

end Variable

end KernelCall
