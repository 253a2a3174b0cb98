import KernelCall.Proofs.Call.Clash
import KernelCall.Proofs.Call.Ways

/-!
# What a trampoline passes on

The formal parameters of a trampoline are the roots of its call, in the order in which the host
passed them. The one statement in its body passes them on in the order in which the kernel function
declares its parameters, whichever way the arguments came.

That parameters differ in name is not needed for this. But no parameter may have a reserved name: a
positional root is named after its parameter, and the statement passes over roots with reserved
names.
-/

namespace KernelCall

open Code

/-- The reserved names among some keywords. -/
def reservedAmong (keywords : List String) : List String :=
  [receiverKeyword, resultKeyword].filter (· ∈ keywords)

theorem perm_reservedAmong {keywords : List String} (h : keywords.Nodup) :
    (keywords.filter isReserved).Perm (reservedAmong keywords) := by
  have hpair : [receiverKeyword, resultKeyword].Nodup := by decide
  refine (List.perm_ext_iff_of_nodup (h.filter _) (hpair.filter _)).mpr fun name ↦ ?_
  simp [isReserved, and_comm]

namespace Call

theorem Bound.perm_names {f : Function} {c : Call} (h : c.Bound f)
    (hfree : ∀ p ∈ f.params, isReserved p.name = false)
    (hkeywords : (c.kwargs.map (·.name)).Nodup) :
    (c.roots.map (·.name)).Perm
      (f.params.map (·.name) ++ reservedAmong (c.kwargs.map (·.name))) := by
  have hfreeRoots : ((c.roots.filter (!isReserved ·.name)).map (·.name)).Perm
      (f.params.map (·.name)) := by
    rw [← h.names_actuals hfree]
    exact (c.actuals_perm.map _).symm
  have hreservedRoots : ((c.roots.filter (isReserved ·.name)).map (·.name)).Perm
      (reservedAmong (c.kwargs.map (·.name))) := by
    have hargs : c.args.filter (isReserved ·.name) = [] :=
      List.filter_eq_nil_iff.mpr fun v hv ↦ by simp [h.not_isReserved_args hfree hv]
    have hkwargs : (c.kwargs.filter (isReserved ·.name)).map (·.name) =
        (c.kwargs.map (·.name)).filter isReserved := by
      rw [List.filter_map]
      rfl
    rw [roots, List.filter_append, hargs, List.nil_append, hkwargs]
    exact perm_reservedAmong hkeywords
  have hsplit := (List.filter_append_perm (isReserved ·.name) c.roots).symm.map (·.name)
  rw [List.map_append] at hsplit
  exact hsplit.trans (List.perm_append_comm.trans (hfreeRoots.append hreservedRoots))

/-- Keyword variables of a built call are named after the keywords, in order. -/
theorem keywords_of_build {lookup : Lookup} {settings : Settings} {f : Function} {a : Arguments}
    {o : Vectorization} {b : BuiltCall} (h : build lookup settings f a o = .ok b) :
    b.call.args.length = a.args.length ∧ b.call.kwargs.map (·.name) = a.kwargs.map (·.1) := by
  obtain ⟨start, hstart, hb⟩ := eq_after_of_build h
  have hskeleton : b.call.skeleton = start.skeleton := by
    rw [hb]
    exact ((reached_start hstart).after _).skeleton
  obtain ⟨hargs, hkwargs, -, -⟩ := ofArguments_eq_ok_iff.mp hstart
  constructor
  · have hlength := congrArg (List.length ∘ Prod.fst) hskeleton
    simpa [skeleton, ← (mapM_eq_some_iff.mp hargs).length_eq] using hlength
  · have hnames := congrArg (List.map Prod.fst ∘ Prod.snd) hskeleton
    rw [← names_of_keywords hkwargs]
    simpa [skeleton, Function.comp_def] using hnames

end Call

/-- The trampoline of a built call. -/
structure BuiltCall.Forwards (f : Function) (a : Arguments) (b : BuiltCall) : Prop where
  /-- There is one root for each argument, in the order in which the host passed them. -/
  roots : b.call.args.length = a.args.length ∧ b.call.kwargs.map (·.name) = a.kwargs.map (·.1)
  /-- The code is that of an outline that ends with the trampoline. -/
  code : b.code = Code.text (b.call.outline f b.gridRank)
  /-- The trampoline has each root as a formal parameter, and one statement. -/
  trampoline : b.call.trampolineOutline f =
    (if f.differentiable then [.mark "[Differentiable]"] else []) ++
      [.function "_trampoline" (b.call.roots.map Variable.trampolineFormal)
        [.evaluate (f.callStatement (a.kwargs.map (·.1)))]]
  /-- The formal parameters are named after what the statement names, one each. -/
  formals : ((b.call.roots.map Variable.trampolineFormal).map Formal.name).Perm
    (f.params.map (·.name) ++ reservedAmong (a.kwargs.map (·.1)))

namespace Call

/-- **Arguments reach their parameters.** Let no parameter of a function have a reserved name.
However the arguments of a built call are passed, its trampoline has one formal parameter for each,
and its one statement names each of these once: it calls the function with all parameters in the
order of their declaration, on the receiver if there is one, and assigns the result if it is asked
for. -/
theorem forwards_of_build {lookup : Lookup} {settings : Settings} {f : Function} {a : Arguments}
    {o : Vectorization} {b : BuiltCall} (h : build lookup settings f a o = .ok b)
    (hfree : ∀ p ∈ f.params, isReserved p.name = false) : b.Forwards f a := by
  have hbound := bound_of_build h
  have hroots := keywords_of_build h
  refine ⟨hroots, code_of_build h, ?_, ?_⟩
  · rw [trampolineOutline, hbound.statement_eq_callStatement hfree, hroots.2]
  · rw [List.map_map, ← hroots.2]
    exact hbound.perm_names hfree (distinct_of_build h).keywords

/-- A member function that moves a number towards a goal, and returns it. -/
def approach : Function where
  name := "approach"
  params := [{ name := "goal", type := .scalar .float }, { name := "part", type := .scalar .float }]
  receiverType := some (.scalar .float)
  returnType := some (.scalar .float)

/-- Everything by keyword, in none of the orders above. -/
def approachArguments : Arguments where
  kwargs := [("part", .float 0), (resultKeyword, .valueRef (.float 0)), ("goal", .int 1),
    (receiverKeyword, .valueRef (.float 2))]

theorem forwards_approach : ∃ b,
    build ⟨.standard, .builtin⟩ {} approach approachArguments {} = .ok b ∧
      (∀ p ∈ approach.params, isReserved p.name = false) ∧ b.Forwards approach approachArguments ∧
        approach.callStatement (approachArguments.kwargs.map (·.1)) =
          "_result = _this.approach(goal, part)" := by
  have hbuilds :
      (build ⟨.standard, .builtin⟩ {} approach approachArguments {}).toOption.isSome := by
    decide +kernel
  obtain ⟨b, hb⟩ := Option.isSome_iff_exists.mp hbuilds
  have h := toOption_eq_some_iff.mp hb
  exact ⟨b, h, by decide, forwards_of_build h (by decide), by decide⟩

end Call

end KernelCall
