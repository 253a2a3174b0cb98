import KernelCall.Proofs.Call.Fitting
import KernelCall.Proofs.Variable.Image

/-!
# Images of calls

The image of a call has the images of its variables, and is a call of the image of its function. A
pass that leaves the image of what it leaves of a variable does so for the call. Overriding finds
variables by their names and counts them, so it is enough that the names stay.
-/

namespace KernelCall

namespace Call

/-- The call with every root changed, and with another function in place of the one it is bound
to. -/
def image (onFunction : Function → Function) (onRoot : Variable → Variable) (c : Call) : Call where
  args := c.args.map onRoot
  kwargs := c.kwargs.map onRoot
  function? := c.function?.map onFunction

variable {F : Function → Function} {G : Variable → Variable}

theorem roots_image (c : Call) : (c.image F G).roots = c.roots.map G := List.map_append.symm

theorem map_name_map (hname : ∀ v, (G v).name = v.name) (vs : List Variable) :
    (vs.map G).map (·.name) = vs.map (·.name) := by
  rw [List.map_map]
  exact List.map_congr_left fun v _ ↦ hname v

theorem kwarg?_image (hname : ∀ v, (G v).name = v.name) (c : Call) (name : String) :
    (c.image F G).kwarg? name = (c.kwarg? name).map G := by
  rw [kwarg?, kwarg?, image, List.find?_map]
  simp only [Function.comp_def, hname]

theorem gridRank_image (hrank : ∀ v, (G v).node.dimensionality? = v.node.dimensionality?)
    (c : Call) : (c.image F G).gridRank = c.gridRank := by
  rw [gridRank, gridRank, roots_image, List.filterMap_map]
  simp only [Function.comp_def, hrank]

theorem signature_image (hfunction : ∀ f, (F f).name = f.name)
    (hsignature : ∀ v, (G v).signature = v.signature) (c : Call) :
    (c.image F G).signature = c.signature := by
  have hname : (c.image F G).functionName = c.functionName := by
    rw [functionName, functionName, image]
    cases c.function? with
    | none => rfl
    | some f => exact hfunction f
  rw [signature, signature, roots_image, List.map_map, hname]
  simp only [Function.comp_def, hsignature]

/-! ## Overriding -/

theorem checkOverrides_image (hname : ∀ v, (G v).name = v.name) (c : Call) (o : Vectorization) :
    (c.image F G).checkOverrides o = c.checkOverrides o := by
  have hkeywords : ∀ seen, (c.image F G).checkKeywordOverrides seen o.kwargs =
      c.checkKeywordOverrides seen o.kwargs := by
    induction o.kwargs with
    | nil => exact fun seen ↦ rfl
    | cons e overrides ih =>
      intro seen
      rw [checkKeywordOverrides, checkKeywordOverrides, kwarg?_image hname, Option.isNone_map, ih]
  rw [checkOverrides, checkOverrides, hkeywords]
  simp only [image, List.length_map]

section

variable {lookup : Lookup}
  (hG : ∀ o v, (G v).vectorize lookup o = (v.vectorize lookup o).map G)

include hG

theorem vectorizePositional_map (vs : List Variable) (os : List Override) :
    vectorizePositional lookup (vs.map G) os =
      (vectorizePositional lookup vs os).map (List.map G) := by
  induction vs generalizing os with
  | nil => cases os <;> rfl
  | cons v vs ih =>
    cases os with
    | nil => rfl
    | cons o os =>
      rw [List.map_cons, vectorizePositional, vectorizePositional]
      refine Progress.andThen_image (hG o v) (fun _ ↦ rfl) fun w ↦ ?_
      rw [ih, Progress.map_map, Progress.map_map]
      rfl

variable (hname : ∀ v, (G v).name = v.name)

include hname

theorem vectorizeKeyword_map (name : String) (o : Override) (vs : List Variable) :
    vectorizeKeyword lookup name o (vs.map G) =
      (vectorizeKeyword lookup name o vs).map (List.map G) := by
  induction vs with
  | nil => rfl
  | cons v vs ih =>
    rw [List.map_cons, vectorizeKeyword, vectorizeKeyword, hname, hG, ih]
    split <;> rfl

theorem vectorizeKeywords_map (vs : List Variable) (os : List (String × Override)) :
    vectorizeKeywords lookup (vs.map G) os =
      (vectorizeKeywords lookup vs os).map (List.map G) := by
  induction os generalizing vs with
  | nil => rfl
  | cons e os ih =>
    rw [vectorizeKeywords, vectorizeKeywords]
    exact Progress.andThen_image (vectorizeKeyword_map hG hname e.1 e.2 vs) (fun _ ↦ rfl) ih

theorem vectorize_image (c : Call) (o : Vectorization) :
    (c.image F G).vectorize lookup o = (c.vectorize lookup o).map (image F G) := by
  rw [vectorize, vectorize, checkOverrides_image hname]
  cases c.checkOverrides o with
  | error e => rfl
  | ok u =>
    refine Progress.andThen_image (vectorizePositional_map hG c.args o.args) (fun _ ↦ rfl)
      fun args ↦ ?_
    rw [Progress.map_map]
    change (vectorizeKeywords lookup (c.kwargs.map G) o.kwargs).map _ = _
    rw [vectorizeKeywords_map hG hname, Progress.map_map]
    rfl

end

/-! ## Passes over all variables -/

theorem traverse_image {pass : Variable → Progress Variable} (h : ∀ v, pass (G v) = (pass v).map G)
    (c : Call) : (c.image F G).traverse pass = (c.traverse pass).map (image F G) := by
  refine Progress.andThen_image (Progress.traverse_image fun v _ ↦ h v) (fun _ ↦ rfl) fun args ↦ ?_
  change (Progress.traverse pass (c.kwargs.map G)).map _ = _
  rw [Progress.traverse_image fun v _ ↦ h v, Progress.map_map, Progress.map_map]
  rfl

end Call

end KernelCall
