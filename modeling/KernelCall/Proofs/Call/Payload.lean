import KernelCall.Proofs.Call.Image
import KernelCall.Proofs.Call.Trampoline
import KernelCall.Proofs.Variable.Payload

/-!
# Builds and payload

Whether and how a call builds depends on the types of its arguments and not on the data in them, so
that the code which was generated for some data can be used for other data of the same form. Both
builds are compared with a third, that of the arguments without their payload: each pass does to a
call without payload what it does to the call.
-/

namespace KernelCall

/-- The arguments without their payload. Arguments have one erasure if they differ in payload
only. -/
def Arguments.erase (a : Arguments) : Arguments where
  args := a.args.map HostValue.erase
  kwargs := a.kwargs.map fun e ↦ (e.1, e.2.erase)

namespace Call

/-- The call without the payload of its marshalls; whatever else is known of its nodes stays. -/
def erase (c : Call) : Call :=
  { c with args := c.args.map Variable.erase, kwargs := c.kwargs.map Variable.erase }

theorem roots_erase (c : Call) : c.erase.roots = c.roots.map Variable.erase :=
  List.map_append.symm

theorem erase_eq_image : erase = image id Variable.erase := by
  funext c
  rw [erase, image, Option.map_id, id]

theorem kwarg?_erase (c : Call) (name : String) :
    c.erase.kwarg? name = (c.kwarg? name).map Variable.erase := by
  rw [erase_eq_image]
  exact kwarg?_image Variable.name_erase c name

/-! ## Variables of arguments -/

theorem ofKeywords_erase (seen : List String) (kwargs : List (String × HostValue)) :
    SameOutcome (fun vs ws ↦ ws = vs.map Variable.erase) (ofKeywords .builtin seen kwargs)
      (ofKeywords .builtin seen (kwargs.map fun e ↦ (e.1, e.2.erase))) := by
  induction kwargs generalizing seen with
  | nil => exact .ok rfl
  | cons e kwargs ih =>
    rw [List.map_cons, ofKeywords, ofKeywords]
    by_cases hseen : seen.contains e.1
    · rw [if_pos hseen, if_pos hseen]
      exact .error rfl rfl
    rw [if_neg hseen, if_neg hseen]
    refine (Variable.ofValue_erase e.1 e.1 e.2).bind fun v _ hv ↦ (ih _).bind fun vs _ hvs ↦ .ok ?_
    rw [hv, hvs, List.map_cons]

theorem ofArguments_erase (a : Arguments) :
    SameOutcome (fun c d ↦ d = c.erase) (ofArguments .builtin a)
      (ofArguments .builtin a.erase) := by
  refine (SameOutcome.mapM_image fun v _ ↦ Variable.ofValue_erase "" "" v).bind fun vs _ hvs ↦
    (ofKeywords_erase [] a.kwargs).bind fun ws _ hws ↦ .ok ?_
  rw [hvs, hws]
  rfl

/-! ## Binding -/

theorem checkArity_erase (c : Call) (f : Function) : c.erase.checkArity f = c.checkArity f :=
  checkArity_congr (List.length_map _) (map_name_map Variable.name_erase c.kwargs)

theorem bindPositional_erase (index : Nat) (vs : List Variable) (ps : List Parameter) :
    bindPositional index (vs.map Variable.erase) ps =
      (bindPositional index vs ps).map (List.map Variable.erase) := by
  induction vs generalizing index ps with
  | nil => cases ps <;> rfl
  | cons v vs ih =>
    cases ps with
    | nil => rfl
    | cons p ps =>
      rw [List.map_cons, bindPositional, bindPositional]
      refine Progress.andThen_image (v.bindRoot_erase _ _ _) (fun _ ↦ rfl) fun w ↦ ?_
      rw [ih, Progress.map_map, Progress.map_map]
      rfl

theorem bindKeyword_erase (f : Function) (v : Variable) :
    bindKeyword f v.erase = (bindKeyword f v).map Variable.erase := by
  rw [bindKeyword_eq, bindKeyword_eq, Variable.name_erase]
  cases f.seat? v.name with
  | none => rfl
  | some ti => exact v.bindRoot_erase _ _ _

theorem bind_erase (c : Call) (f : Function) : c.erase.bind f = (c.bind f).map erase := by
  rw [bind, bind, checkArity_erase]
  cases c.checkArity f with
  | error e => rfl
  | ok u =>
    exact Progress.andThen_image (bindPositional_erase 0 c.args f.params) (fun _ ↦ rfl) fun args ↦
      Progress.andThen_image (Progress.traverse_image fun v _ ↦ bindKeyword_erase f v)
        (fun _ ↦ rfl) fun _ ↦ rfl

/-! ## Passes -/

theorem vectorize_erase (lookup : Lookup) (c : Call) (o : Vectorization) :
    c.erase.vectorize lookup o = (c.vectorize lookup o).map erase := by
  rw [erase_eq_image]
  exact vectorize_image (Variable.vectorize_erase lookup) Variable.name_erase c o

theorem resolve_erase (c : Call) : c.erase.resolve = c.resolve.map erase := by
  rw [erase_eq_image]
  exact traverse_image Variable.resolve_erase c

theorem align_erase (dispatch : Dispatch) (c : Call) :
    c.erase.align dispatch = (c.align dispatch).map erase := by
  rw [erase_eq_image]
  exact traverse_image (Variable.align_erase dispatch) c

theorem differentiate_erase (mode : CallMode) (c : Call) :
    c.erase.differentiate mode = (c.differentiate mode).map erase := by
  rw [erase_eq_image]
  exact traverse_image (Variable.differentiate_erase mode) c

theorem gridRank_erase (c : Call) : c.erase.gridRank = c.gridRank := by
  rw [erase_eq_image]
  refine gridRank_image (fun v ↦ ?_) c
  rw [Variable.node_erase]
  rfl

/-! ## Code and signature -/

theorem statement_erase (c : Call) (f : Function) : c.erase.statement f = c.statement f := by
  refine statement_congr (names_actuals_congr ?_) fun name _ ↦ ?_
  · rw [roots_erase, List.forall₂_map_left_iff]
    refine List.forall₂_same.mpr fun v _ ↦ ⟨v.name_erase, ?_⟩
    rw [Variable.node_erase, Node.paramIndex?_erase]
  · rw [kwarg?_erase, Option.map_map]
    exact Option.map_congr fun v _ ↦ v.name_erase

theorem trampoline_erase (c : Call) : c.erase.trampoline = c.trampoline := by
  simp only [trampoline, statement_erase, roots_erase, List.mapM_map, Function.comp_def,
    Variable.formal_erase]
  rfl

theorem emit_erase (c : Call) (gridRank : Nat) : c.erase.emit gridRank = c.emit gridRank := by
  have hemit : ∀ (m : Code.Module) (v : Variable),
      v.erase.emit gridRank true m = v.emit gridRank true m := fun m v ↦ by
    simp only [Variable.emit, Variable.typeCommands_erase, Variable.name_erase]
  simp only [emit, trampoline_erase, roots_erase, List.foldlM_map, hemit]

theorem signature_erase (c : Call) : c.erase.signature = c.signature := by
  rw [erase_eq_image]
  exact signature_image (fun _ ↦ rfl) Variable.signature_erase c

/-! ## Builds -/

/-- The arguments without payload build the call without payload, with the same code. -/
theorem build_erase (layout : Layout) (settings : Settings) (f : Function) (a : Arguments)
    (o : Vectorization) :
    SameOutcome (fun b d ↦ d = { b with call := b.call.erase })
      (build ⟨layout, .builtin⟩ settings f a o)
      (build ⟨layout, .builtin⟩ settings f a.erase o) := by
  have hprepare : SameOutcome (fun c d ↦ d = c.erase) (prepare ⟨layout, .builtin⟩ f a o)
      (prepare ⟨layout, .builtin⟩ f a.erase o) := by
    refine (ofArguments_erase a).bind fun c _ hc ↦ ?_
    rw [hc, bind_erase, Progress.toExcept_map]
    refine (SameOutcome.image erase _).bind fun c _ hc ↦ ?_
    rw [hc, vectorize_erase, Progress.toExcept_map]
    refine (SameOutcome.image erase _).bind fun c _ hc ↦ ?_
    rw [hc, resolve_erase, Progress.toExcept_map]
    exact SameOutcome.image erase _
  refine hprepare.bind fun c _ hc ↦ ?_
  rw [hc, gridRank_erase]
  dsimp only
  rw [align_erase, Progress.toExcept_map]
  refine (SameOutcome.image erase _).bind fun c₁ _ hc₁ ↦ ?_
  rw [hc₁, differentiate_erase, Progress.toExcept_map]
  refine (SameOutcome.image erase _).bind fun c₂ _ hc₂ ↦ ?_
  rw [hc₂, emit_erase]
  cases c₂.emit c.gridRank with
  | error e => exact .error rfl rfl
  | ok m => exact .ok rfl

end Call

/-- The built calls are the same but for the payload of the values they carry. -/
structure BuiltCall.SameButPayload (b b' : BuiltCall) : Prop where
  code : b'.code = b.code
  gridRank : b'.gridRank = b.gridRank
  signature : b'.call.signature = b.call.signature
  /-- The trees are the same, and so is all that is known of any node: its name and path, what it is
  bound to, the types, the mapping, the derivatives and the access. -/
  call : b'.call.erase = b.call.erase

namespace Call

/-- **Builds do not depend on payload.** Of arguments that differ in payload only, wherever it is in
dictionaries and references, both builds succeed with the same code and the same call but for the
payload, or both fail with errors of one category and path. -/
theorem build_of_erase_eq (layout : Layout) (settings : Settings) (f : Function)
    {a a' : Arguments} (o : Vectorization) (h : a.erase = a'.erase) :
    SameOutcome BuiltCall.SameButPayload (build ⟨layout, .builtin⟩ settings f a o)
      (build ⟨layout, .builtin⟩ settings f a' o) := by
  have hcommon := (build_erase layout settings f a o).common
    (h ▸ build_erase layout settings f a' o)
  refine hcommon.imp ?_
  rintro b b' ⟨d, rfl, hd⟩
  obtain ⟨hcall, hrank, hcode⟩ := BuiltCall.mk.inj hd.symm
  refine ⟨hcode, hrank, ?_, hcall⟩
  rw [← signature_erase, hcall, signature_erase]

/-- A kernel that weighs an item. -/
def weigh : Function where
  name := "weigh"
  params := [
    { name := "item",
      type := .struct "Item" [("mass", .scalar .float), ("place", .vector .float 2)] false },
    { name := "scale", type := .scalar .float }]

/-- As many masses as asked for, in one place. -/
def items (count : Nat) (place : Float × Float) (scale : Int) : Arguments where
  args := [.dict [("mass", .buffer { element := .scalar .float, extents := [count] }),
    ("place", .vector .float [place.1, place.2])]]
  kwargs := [("scale", .valueRef (.int scale))]

/-- The code for few items is the code for many. -/
theorem build_of_erase_eq_items :
    (build ⟨.standard, .builtin⟩ {} weigh (items 8 (0, 1) 3) {}).toOption.isSome ∧
      SameOutcome BuiltCall.SameButPayload
        (build ⟨.standard, .builtin⟩ {} weigh (items 8 (0, 1) 3) {})
        (build ⟨.standard, .builtin⟩ {} weigh (items 4096 (2.5, -1) 10) {}) :=
  ⟨by decide +kernel, build_of_erase_eq _ _ _ _ rfl⟩

end Call

end KernelCall
