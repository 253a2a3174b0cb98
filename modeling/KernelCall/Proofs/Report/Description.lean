import KernelCall.Call.Signature
import KernelCall.Proofs.Call.Paths
import KernelCall.Proofs.Report.Word

/-!
# Errors in the description of a call

The description of a bound call has the name of the function and below it a line for each node, which
starts with the node's path. An error marks the first word of the description that is its path. The
lines above that of the node are about other variables, but the same word may be in them: in the name
of a type, for which the kernel and the host use the words that name variables too, or as one of the
words in which differentiability and access are told. The name of the function is above all lines.
-/

namespace KernelCall

open Text

/-! ## What a line mentions -/

namespace Node

/-- What is said of a node behind its host type, as far as it is resolved. -/
def remarks (n : Node) : List String :=
  n.vectorType?.toList.map ("-> " ++ ·.name) ++
    (if n.mapping.isResolved then [n.mapping.text] else []) ++
    (if n.differentiable then ["diff"] else []) ++
    (if n.access = .untouched then [] else [n.access.text])

theorem description_eq (n : Node) : n.description =
    n.path ++ ": " ++ n.marshall.typeName ++ String.join (n.remarks.map (" " ++ ·)) := by
  have harrow : ∀ s : String, " -> " ++ s = " " ++ ("-> " ++ s) := by
    intro s
    rw [← String.append_assoc]
    rfl
  rw [description, remarks]
  cases n.vectorType? <;> cases n.mapping.isResolved <;> cases n.differentiable <;>
    by_cases haccess : n.access = .untouched <;> simp [haccess, harrow, String.append_assoc]

/-- The words that follow the path of a node on its line, apart from axes: those in the names of its
host type and of its vector type, `diff`, and the accesses to both slots. -/
def Mentions (n : Node) (path : String) : Prop :=
  Text.Mentions n.marshall.typeName path ∨
    (∃ t, n.vectorType? = some t ∧ Text.Mentions t.name path) ∨
    (n.differentiable ∧ path = "diff") ∨ (n.access ≠ .untouched ∧
      (path = n.access.primal.name ∨ path = n.access.derivative.name))

end Node

namespace Mapping

theorem isDigit_of_mem_text {axes : List Nat} {c : Char} (hc : c ∈ (onto axes).text.toList)
    (hpath : isPathChar c) : c.isDigit := by
  have hbreak : ∀ s : String, s.toList.all (!isPathChar ·) → c ∉ s.toList := by
    intro s hs hmem
    have hnot := List.all_eq_true.mp hs c hmem
    rw [hpath] at hnot
    cases hnot
  have hmem : ∃ axis : Nat, c ∈ (toString axis).toList := by
    rcases axes with _ | ⟨axis, _ | ⟨axis', axes⟩⟩
    · exact absurd hc (hbreak "()" rfl)
    · simp only [text, String.toList_append, List.mem_append] at hc
      rcases hc with (hc | hc) | hc
      · exact absurd hc (hbreak "(" rfl)
      · exact ⟨axis, hc⟩
      · exact absurd hc (hbreak ",)" rfl)
    · simp only [text, String.toList_append, List.mem_append] at hc
      rcases hc with (hc | hc) | hc
      · exact absurd hc (hbreak "(" rfl)
      · obtain ⟨s, hs, hc⟩ := (mem_of_mem_intercalate hc).resolve_left (hbreak ", " rfl)
        obtain ⟨axis, -, rfl⟩ := List.mem_map.mp hs
        exact ⟨axis, hc⟩
      · exact absurd hc (hbreak ")" rfl)
  obtain ⟨axis, hdigit⟩ := hmem
  exact isDigit_of_mem_toString hdigit

end Mapping

namespace AccessPair

theorem mentions_text_iff {a : AccessPair} {path : String} (hpath : IsPath path) :
    Mentions a.text path ↔ path = a.primal.name ∨ path = a.derivative.name := by
  have hname : ∀ a : Access, ∀ c ∈ a.name.toList, isPathChar c := by
    intro a
    cases a <;> exact List.all_eq_true.mp rfl
  have hcomma := isBoundary_getLast?_append ("(" ++ a.primal.name) (t := ", ") rfl rfl
  rw [text, mentions_append_iff hpath (Or.inr rfl), mentions_append_iff hpath (Or.inl hcomma),
    mentions_append_iff hpath (Or.inr rfl), mentions_append_iff hpath (Or.inl rfl),
    mentions_iff_eq (hname _), mentions_iff_eq (hname _),
    or_iff_left (not_mentions_breaks hpath ")" rfl),
    or_iff_left (not_mentions_breaks hpath ", " rfl),
    or_iff_right (not_mentions_breaks hpath "(" rfl)]

end AccessPair

namespace Node

variable {n : Node} {path : String}

theorem mentions_remarks_iff (hpath : IsPath path) :
    (∃ s ∈ n.remarks, Text.Mentions s path) ↔
      (∃ t, n.vectorType? = some t ∧ Text.Mentions t.name path) ∨
        (n.differentiable ∧ path = "diff") ∨ (n.access ≠ .untouched ∧
          (path = n.access.primal.name ∨ path = n.access.derivative.name)) := by
  have htype : (∃ s ∈ n.vectorType?.toList.map ("-> " ++ ·.name), Text.Mentions s path) ↔
      ∃ t, n.vectorType? = some t ∧ Text.Mentions t.name path := by
    have harrow : ∀ s, Text.Mentions ("-> " ++ s) path ↔ Text.Mentions s path := fun s ↦
      (mentions_append_iff hpath (Or.inl rfl)).trans (or_iff_right (not_mentions_breaks hpath "-> " rfl))
    cases n.vectorType? <;> simp [harrow]
  have hmapping : ¬ ∃ s ∈ (if n.mapping.isResolved then [n.mapping.text] else []),
      Text.Mentions s path := by
    cases n.mapping with
    | unresolved => simp
    | onto axes => simpa using not_mentions hpath fun _ ↦ Mapping.isDigit_of_mem_text
  have hdiff : (∃ s ∈ (if n.differentiable then ["diff"] else []), Text.Mentions s path) ↔
      n.differentiable ∧ path = "diff" := by
    have hword : Text.Mentions "diff" path ↔ path = "diff" := mentions_iff_eq (List.all_eq_true.mp rfl)
    cases n.differentiable <;> simp [hword]
  have haccess : (∃ s ∈ (if n.access = .untouched then [] else [n.access.text]),
      Text.Mentions s path) ↔ n.access ≠ .untouched ∧
        (path = n.access.primal.name ∨ path = n.access.derivative.name) := by
    by_cases huntouched : n.access = .untouched <;>
      simp [huntouched, AccessPair.mentions_text_iff hpath]
  simp only [remarks, List.mem_append, or_and_right, exists_or, htype, hmapping, hdiff, haccess,
    false_or, or_assoc]

/-- **What the line of a node mentions.** -/
theorem mentions_description_iff (hpath : IsPath path) (hn : ∀ c ∈ n.path.toList, isPathChar c) :
    Text.Mentions n.description path ↔ path = n.path ∨ n.Mentions path := by
  have hcolon := isBoundary_getLast?_append n.path (t := ": ") rfl rfl
  rw [description_eq, mentions_append_iff hpath (Or.inr (isBoundary_head?_join n.remarks)),
    mentions_append_iff hpath (Or.inl hcolon), mentions_append_iff hpath (Or.inr rfl),
    mentions_iff_eq hn, or_iff_left (not_mentions_breaks hpath ": " rfl),
    mentions_join_iff hpath, mentions_remarks_iff hpath, or_assoc]
  rfl

end Node

/-- In a bound call the paths of nodes are made of their names. -/
theorem Call.Bound.isPath {c : Call} {f : Function} (h : c.Bound f)
    (hnames : ∀ n ∈ c.nodes, IsPath n.name) : ∀ n ∈ c.nodes, IsPath n.path := by
  intro n hn
  rw [← c.map_snd_routes] at hn
  obtain ⟨r, hr, rfl⟩ := List.mem_map.mp hn
  rw [h.path_of_mem_routes hr]
  obtain ⟨v, hv, hr⟩ := List.mem_flatMap.mp hr
  refine isPath_intercalate ?_ fun name hname ↦ ?_
  · intro hnil
    have hhead := Variable.head?_of_mem_routes hr
    rw [hnil] at hhead
    cases hhead
  · obtain ⟨m, hm, rfl⟩ := Variable.exists_node_of_mem_route hr hname
    exact hnames m (List.mem_flatMap.mpr ⟨v, hv, hm⟩)

/-! ## Lines of a call -/

/-- A node and the level at which its line stands. -/
structure Entry where
  level : Nat
  node : Node

namespace Entry

/-- The blanks in front of a line. -/
def margin (x : Entry) : String := String.join (List.replicate x.level "  ")

/-- The line of a node. -/
def row (x : Entry) : String := x.margin ++ x.node.description

theorem eq_blank_of_mem_margin {x : Entry} {c : Char} (hc : c ∈ x.margin.toList) : c = ' ' := by
  rw [margin, String.toList_join, List.mem_flatMap] at hc
  obtain ⟨s, hs, hc⟩ := hc
  rw [List.eq_of_mem_replicate hs] at hc
  simpa using hc

theorem isBoundary_getLast?_margin (x : Entry) : Span.isBoundary x.margin.toList.getLast? := by
  cases hlast : x.margin.toList.getLast? with
  | none => rfl
  | some c =>
    rw [eq_blank_of_mem_margin (List.mem_of_getLast? hlast)]
    rfl

theorem not_mentions_margin (x : Entry) {path : String} (hpath : IsPath path) :
    ¬ Mentions x.margin path := by
  refine not_mentions hpath fun c hc hchar ↦ ?_
  rw [eq_blank_of_mem_margin hc] at hchar
  cases hchar

theorem mentions_row_iff {x : Entry} {path : String} (hpath : IsPath path)
    (hx : ∀ c ∈ x.node.path.toList, isPathChar c) :
    Mentions x.row path ↔ path = x.node.path ∨ x.node.Mentions path := by
  rw [row, mentions_append_iff hpath (Or.inl x.isBoundary_getLast?_margin),
    or_iff_right (x.not_mentions_margin hpath), Node.mentions_description_iff hpath hx]

end Entry

namespace Variable

mutual

/-- The lines of a variable that stands at a level. -/
def entries (level : Nat) : Variable → List Entry
  | leaf n => [⟨level, n⟩]
  | dict n fs => ⟨level, n⟩ :: entriesOf (level + 1) fs

def entriesOf (level : Nat) : List Variable → List Entry
  | [] => []
  | v :: vs => v.entries level ++ entriesOf level vs

end

theorem entriesOf_eq_flatMap (level : Nat) (vs : List Variable) :
    entriesOf level vs = vs.flatMap (entries level) := by
  induction vs with
  | nil => rfl
  | cons v vs ih => rw [entriesOf, ih, List.flatMap_cons]

theorem fieldsDescription_eq_join (level : Nat) (vs : List Variable) :
    fieldsDescription level vs = String.join (vs.map (description level)) := by
  induction vs with
  | nil => rfl
  | cons v vs ih => rw [fieldsDescription, ih, List.map_cons, String.join_cons]

theorem join_description {level : Nat} {vs : List Variable}
    (h : ∀ v ∈ vs, v.description level = unlines ((v.entries level).map Entry.row)) :
    String.join (vs.map (description level)) =
      unlines ((vs.flatMap (entries level)).map Entry.row) := by
  induction vs with
  | nil => rfl
  | cons v vs ih =>
    rw [List.forall_mem_cons] at h
    rw [List.map_cons, String.join_cons, h.1, ih h.2, List.flatMap_cons, List.map_append,
      unlines_append]

/-- A description has the lines of all nodes. -/
theorem description_eq_unlines (v : Variable) (level : Nat) :
    v.description level = unlines ((v.entries level).map Entry.row) := by
  induction v generalizing level with
  | leaf n => simp [description, entries, unlines_cons, Entry.row, Entry.margin]
  | dict n fs ih =>
    rw [description, entries, fieldsDescription_eq_join, entriesOf_eq_flatMap,
      join_description fun f hf ↦ ih f hf _, List.map_cons, unlines_cons]
    rfl

theorem map_node_entries (v : Variable) (level : Nat) :
    (v.entries level).map Entry.node = v.nodes := by
  induction v generalizing level with
  | leaf n => rfl
  | dict n fs ih =>
    rw [entries, entriesOf_eq_flatMap, nodes_dict, List.map_cons, List.map_flatMap,
      List.flatMap_congr fun f hf ↦ ih f hf _]

end Variable

namespace Call

variable {c : Call} {f : Function}

/-- The lines below that of the function. -/
def entries (c : Call) : List Entry := c.roots.flatMap (Variable.entries 1)

theorem map_node_entries (c : Call) : c.entries.map Entry.node = c.nodes := by
  rw [entries, List.map_flatMap, nodes, List.flatMap_congr fun v _ ↦ v.map_node_entries 1]

theorem description_eq_unlines (hf : c.function? = some f) :
    c.description = unlines (f.name :: c.entries.map Entry.row) := by
  rw [description, hf, Variable.join_description fun v _ ↦ v.description_eq_unlines 1, unlines_cons]
  rfl

/-- What is in front of the path of a node in the description of a call to `f`, `before` being the
lines above its own. -/
def lead (f : Function) (before : List Entry) (x : Entry) : String :=
  unlines (f.name :: before.map Entry.row) ++ x.margin

/-- What is in front of a path mentions the function and what the lines above mention. -/
theorem mentions_lead_iff {before : List Entry} {x : Entry} {path : String} (hpath : IsPath path)
    (hname : IsPath f.name) (hbefore : ∀ y ∈ before, IsPath y.node.path) :
    Mentions (lead f before x) path ↔ path = f.name ∨
      ∃ y ∈ before, path = y.node.path ∨ y.node.Mentions path := by
  rw [lead, mentions_append_iff hpath (Or.inl (isBoundary_getLast?_unlines _)),
    or_iff_left (x.not_mentions_margin hpath), mentions_unlines_iff hpath, List.exists_mem_cons_iff,
    mentions_iff_eq hname.chars]
  simp only [List.mem_map, exists_exists_and_eq_and]
  refine or_congr_right (exists_congr fun y ↦ and_congr_right fun hy ↦ ?_)
  exact Entry.mentions_row_iff hpath (hbefore y hy).chars

/-- The text around the path of a node on the node's own line. -/
theorem description_eq_lead (hf : c.function? = some f) {before after : List Entry} {x : Entry}
    (hsplit : c.entries = before ++ x :: after) : c.description =
      lead f before x ++ (x.node.description ++ "\n" ++ unlines (after.map Entry.row)) := by
  rw [description_eq_unlines hf, hsplit, List.map_append, List.map_cons, ← List.cons_append,
    unlines_append, unlines_cons x.row, lead, Entry.row]
  simp only [String.append_assoc]

/-- A path marks its place on the line of its node exactly if nothing in front of it mentions it. -/
theorem span_eq_iff_not_mentions (hf : c.function? = some f) {before after : List Entry} {x : Entry}
    (hsplit : c.entries = before ++ x :: after) (hpath : IsPath x.node.path) {e : BindError}
    (he : e.path = x.node.path) :
    e.span c.description = ⟨(lead f before x).utf8ByteSize,
      (lead f before x).utf8ByteSize + x.node.path.utf8ByteSize⟩ ↔
        ¬ Mentions (lead f before x) x.node.path := by
  have hbreak : Span.isBoundary (lead f before x).toList.getLast? := by
    rw [lead, String.toList_append, List.getLast?_append]
    exact Span.isBoundary_or x.isBoundary_getLast?_margin (isBoundary_getLast?_unlines _)
  obtain ⟨rest, hrest, hcolon⟩ : ∃ rest : String, c.description =
      lead f before x ++ (x.node.path ++ rest) ∧ Span.isBoundary rest.toList.head? := by
    rw [description_eq_lead hf hsplit, Node.description_eq]
    simp only [String.append_assoc]
    exact ⟨_, rfl, by rw [String.toList_append]; rfl⟩
  rw [BindError.span, he, hrest, String.toList_append, String.toList_append]
  rw [← Span.byteLength_toList, ← Span.byteLength_toList]
  exact Span.ofPath_eq_iff hpath.ne_nil hpath.chars hbreak hcolon

/-- **When an error marks the line of its node.** In a call that is bound to a function, let paths be
made of identifiers, and let no two nodes have one path. Every node has a line that starts with its
path, and an error at this path marks it there exactly if the function has another name than the path
and no line above says the path of anything: not as a word in the name of a type, nor as `diff` or an
access. -/
theorem span_description_iff (hf : c.function? = some f) (hname : IsPath f.name)
    (hpaths : ∀ n ∈ c.nodes, IsPath n.path) (hunique : (c.nodes.map (·.path)).Nodup) :
    ∀ n ∈ c.nodes, ∃ before level after, c.entries = before ++ ⟨level, n⟩ :: after ∧
      c.description = lead f before ⟨level, n⟩ ++
        (n.description ++ "\n" ++ unlines (after.map Entry.row)) ∧
      ∀ e : BindError, e.path = n.path →
        (e.span c.description = ⟨(lead f before ⟨level, n⟩).utf8ByteSize,
          (lead f before ⟨level, n⟩).utf8ByteSize + n.path.utf8ByteSize⟩ ↔
            f.name ≠ n.path ∧ ∀ x ∈ before, ¬ x.node.Mentions n.path) := by
  have hentries : ∀ x ∈ c.entries, IsPath x.node.path := fun x hx ↦
    hpaths x.node (c.map_node_entries ▸ List.mem_map_of_mem hx)
  rw [← c.map_node_entries, List.map_map] at hunique
  intro n hn
  rw [← c.map_node_entries] at hn
  obtain ⟨⟨level, n⟩, hx, rfl⟩ := List.mem_map.mp hn
  obtain ⟨before, after, hsplit⟩ := List.append_of_mem hx
  rw [hsplit] at hentries hunique
  rw [List.map_append, List.map_cons, List.nodup_append] at hunique
  -- the lines above mention their own paths too, but these are others
  have hbefore : ∀ y ∈ before, n.path ≠ y.node.path := fun y hy heq ↦
    hunique.2.2 _ (List.mem_map_of_mem hy) _ List.mem_cons_self heq.symm
  have hpath : IsPath n.path := hentries ⟨level, n⟩ (by simp)
  refine ⟨before, level, after, hsplit, description_eq_lead hf hsplit, fun e he ↦ ?_⟩
  have hlead : Text.Mentions (lead f before ⟨level, n⟩) n.path ↔ _ :=
    mentions_lead_iff hpath hname fun y hy ↦ hentries y (List.mem_append_left _ hy)
  rw [span_eq_iff_not_mentions hf hsplit hpath he, hlead, not_or, ne_comm]
  refine and_congr_right' ⟨fun h y hy hmentions ↦ h ⟨y, hy, Or.inr hmentions⟩, ?_⟩
  rintro h ⟨y, hy, heq | hmentions⟩
  · exact hbefore y hy heq
  · exact h y hy hmentions

/-- A kernel that takes a point and a number. -/
def stretch : Function where
  name := "stretch"
  params := [
    { name := "point",
      type := .struct "Point" [("x", .scalar .float), ("y", .scalar .float)] true },
    { name := "x", type := .scalar .float }]

/-- A point of two numbers, and a number. -/
def stretchArguments : Arguments where
  args := [.dict [("x", .float 1), ("y", .int 2)], .float 3]

/-- A point with a field `x`, and a number `x`: one path ends like another. -/
theorem span_description_iff_stretch : ∃ start c,
    ofArguments .builtin stretchArguments = .ok start ∧ (start.bind stretch).result? = some c ∧
    c.function? = some stretch ∧ IsPath stretch.name ∧
    (∀ n ∈ c.nodes, IsPath n.path) ∧ (c.nodes.map (·.path)).Nodup ∧
    ∀ n ∈ c.nodes, ∃ before level after, c.entries = before ++ ⟨level, n⟩ :: after ∧
      c.description = lead stretch before ⟨level, n⟩ ++
        (n.description ++ "\n" ++ unlines (after.map Entry.row)) ∧
      ∀ e : BindError, e.path = n.path →
        (e.span c.description = ⟨(lead stretch before ⟨level, n⟩).utf8ByteSize,
          (lead stretch before ⟨level, n⟩).utf8ByteSize + n.path.utf8ByteSize⟩ ↔
            stretch.name ≠ n.path ∧ ∀ x ∈ before, ¬ x.node.Mentions n.path) := by
  have hnames : ∀ start c, ofArguments .builtin stretchArguments = .ok start →
      (start.bind stretch).result? = some c →
        (∀ n ∈ c.nodes, IsPath n.name) ∧ (c.nodes.map (·.path)).Nodup := by
    rintro _ _ ⟨⟩ ⟨⟩
    decide +kernel
  have hpaths : ∀ start c, ofArguments .builtin stretchArguments = .ok start →
      (start.bind stretch).result? = some c → ∀ n ∈ c.nodes, IsPath n.path := by
    intro start c hstart hbind
    have hbound := (bound_of_bind (name_of_mem_args hstart) hbind).1
    exact hbound.isPath (hnames start c hstart hbind).1
  have hpaths := hpaths _ _ rfl rfl
  have hunique := (hnames _ _ rfl rfl).2
  exact ⟨_, _, rfl, rfl, rfl, by decide, hpaths, hunique,
    span_description_iff rfl (by decide) hpaths hunique⟩

/-- A kernel whose parameter has the name of the kernel. -/
def tint : Function where
  name := "tint"
  params := [{ name := "tint", type := .scalar .float }]

def oneNumber : Arguments where
  args := [.float 1]

/-- **An error that marks the function.** The path of the only node is a word at the beginning of the
description, and there it is marked; the node's own line starts below. -/
theorem exists_span_ne : ∃ start c n, ofArguments .builtin oneNumber = .ok start ∧
    (start.bind tint).result? = some c ∧ IsPath tint.name ∧ (∀ n ∈ c.nodes, IsPath n.path) ∧
      (c.nodes.map (·.path)).Nodup ∧ c.nodes = [n] ∧
      c.description = lead tint [] ⟨1, n⟩ ++ (n.description ++ "\n") ∧
      ∀ e : BindError, e.path = n.path → e.span c.description = ⟨0, 4⟩ ∧
        (lead tint [] ⟨1, n⟩).utf8ByteSize = 7 := by
  refine ⟨_, _, _, rfl, rfl, by decide, ?_, ?_, rfl, ?_, fun e he ↦ ⟨?_, ?_⟩⟩
  · decide +kernel
  · decide +kernel
  · decide +kernel
  · rw [BindError.span, he]
    decide +kernel
  · decide +kernel

end Call

end KernelCall
