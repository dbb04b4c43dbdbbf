import FilterClause.Proofs.Emission.Rendering

/-!
# The columns of a skeleton

A resolver with a state may find another column each time it is asked for the same property. So the
columns are written into the fragments of an expression one by one, and the fragments then spell a
skeleton that shows the expression with just these columns, in the order of emission.
-/

namespace FilterClause

namespace Skeleton

mutual

/-- The columns in the order of emission. -/
def columns : Skeleton → List String
  | null | hole => []
  | column name => [name]
  | binary _ left right => left.columns ++ right.columns
  | not operand => operand.columns
  | call name arguments => (Call.inEmissionOrder name (argumentColumns arguments)).flatten

def argumentColumns : List Skeleton → List (List String)
  | [] => []
  | k :: ks => k.columns :: argumentColumns ks

end

theorem argumentColumns_eq_map (ks : List Skeleton) : argumentColumns ks = ks.map columns := by
  induction ks with
  | nil => rfl
  | cons k ks ih => rw [argumentColumns, ih, List.map_cons]

mutual

/-- The skeleton with nothing in the place of its columns. -/
def outline : Skeleton → Skeleton
  | null => null
  | hole => hole
  | column _ => column ""
  | binary word left right => binary word left.outline right.outline
  | not operand => not operand.outline
  | call name arguments => call name (argumentOutlines arguments)

def argumentOutlines : List Skeleton → List Skeleton
  | [] => []
  | k :: ks => k.outline :: argumentOutlines ks

end

theorem argumentOutlines_eq_map (ks : List Skeleton) : argumentOutlines ks = ks.map outline := by
  induction ks with
  | nil => rfl
  | cons k ks ih => rw [argumentOutlines, ih, List.map_cons]

end Skeleton

namespace Fragment

/-- The second fragments are the first ones with these columns written into them. Nothing is refused
in them. -/
inductive Fills : List Fragment → List String → List Fragment → Prop where
  | nil : Fills [] [] []
  | text (t : String) {fs zs : List Fragment} {cs : List String} (h : Fills fs cs zs) :
    Fills (text t :: fs) cs (text t :: zs)
  | bound (v : Value) {fs zs : List Fragment} {cs : List String} (h : Fills fs cs zs) :
    Fills (bound v :: fs) cs (bound v :: zs)
  | column (p : Property) (c : String) {fs zs : List Fragment} {cs : List String}
    (h : Fills fs cs zs) : Fills (column p :: fs) (c :: cs) (text c :: zs)

namespace Fills

theorem of_nil {cs : List String} {zs : List Fragment} (h : Fills [] cs zs) :
    cs = [] ∧ zs = [] := by
  cases h
  exact ⟨rfl, rfl⟩

theorem of_text_cons {t : String} {fs zs : List Fragment} {cs : List String}
    (h : Fills (.text t :: fs) cs zs) : ∃ zs', Fills fs cs zs' ∧ zs = .text t :: zs' := by
  cases h with
  | text _ h => exact ⟨_, h, rfl⟩

theorem of_append {xs ys zs : List Fragment} {cs : List String} (h : Fills (xs ++ ys) cs zs) :
    ∃ cs₁ cs₂ zs₁ zs₂, Fills xs cs₁ zs₁ ∧ Fills ys cs₂ zs₂ ∧ cs = cs₁ ++ cs₂ ∧
      zs = zs₁ ++ zs₂ := by
  induction xs generalizing cs zs with
  | nil => exact ⟨[], cs, [], zs, .nil, h, rfl, rfl⟩
  | cons x xs ih =>
    cases h with
    | text t h =>
      obtain ⟨cs₁, cs₂, zs₁, zs₂, hx, hy, rfl, rfl⟩ := ih h
      exact ⟨_, _, _, _, .text t hx, hy, rfl, rfl⟩
    | bound v h =>
      obtain ⟨cs₁, cs₂, zs₁, zs₂, hx, hy, rfl, rfl⟩ := ih h
      exact ⟨_, _, _, _, .bound v hx, hy, rfl, rfl⟩
    | column p c h =>
      obtain ⟨cs₁, cs₂, zs₁, zs₂, hx, hy, rfl, rfl⟩ := ih h
      exact ⟨_, _, _, _, .column p c hx, hy, rfl, rfl⟩

theorem of_closed {xs zs : List Fragment} {t : String} {cs : List String}
    (h : Fills (xs ++ [.text t]) cs zs) : ∃ zs', Fills xs cs zs' ∧ zs = zs' ++ [.text t] := by
  obtain ⟨cs₁, cs₂, zs₁, zs₂, hx, hclosing, rfl, rfl⟩ := h.of_append
  obtain ⟨zs', hnil, rfl⟩ := hclosing.of_text_cons
  obtain ⟨rfl, rfl⟩ := hnil.of_nil
  exact ⟨zs₁, by rwa [List.append_nil], rfl⟩

/-- Each part is filled with columns of its own. -/
abbrev Parts (parts : List (List Fragment)) (filled : List (List String × List Fragment)) : Prop :=
  List.Forall₂ (fun part f => Fills part f.1 f.2) parts filled

theorem of_commaSeparated {parts : List (List Fragment)} {zs : List Fragment} {cs : List String}
    (h : Fills (commaSeparated parts) cs zs) :
    ∃ filled, Parts parts filled ∧ cs = (filled.map Prod.fst).flatten ∧
      zs = commaSeparated (filled.map Prod.snd) := by
  induction parts generalizing cs zs with
  | nil =>
    obtain ⟨rfl, rfl⟩ := h.of_nil
    exact ⟨[], .nil, rfl, rfl⟩
  | cons part parts ih =>
    cases parts with
    | nil => exact ⟨[(cs, zs)], .cons h .nil, by simp, rfl⟩
    | cons part' parts =>
      obtain ⟨cs₁, cs₂, zs₁, zs₂, hpart, hrest, rfl, rfl⟩ := h.of_append
      obtain ⟨zs', hparts, rfl⟩ := hrest.of_text_cons
      obtain ⟨filled, hfilled, rfl, rfl⟩ := ih hparts
      obtain ⟨f, filled', hf, hfilled', rfl⟩ := List.forall₂_cons_left_iff.mp hfilled
      exact ⟨(cs₁, zs₁) :: f :: filled', .cons hpart (.cons hf hfilled'), rfl, rfl⟩

/-- The columns of a call are those of its arguments, whatever its form. -/
theorem of_call {name : String} {parts : List (List Fragment)} {form : FunctionForm}
    (hform : FunctionForm.ofCall? name parts.length = some form) {zs : List Fragment}
    {cs : List String} (h : Fills (form.fragments parts) cs zs) :
    ∃ filled, Parts parts filled ∧
      cs = (Call.inEmissionOrder name (filled.map Prod.fst)).flatten ∧
      zs = form.fragments (filled.map Prod.snd) := by
  generalize hc : parts.length = count at hform
  cases Call.formOf_ofCall? hform with
  | @predicate opening closing hn _ =>
    obtain ⟨a, b, rfl⟩ := List.length_eq_two.mp hc
    have hfragments : Fills (a ++ .text opening :: b ++ [.text closing]) cs zs := by
      simpa [FunctionForm.fragments, TemplatePart.fragments] using h
    obtain ⟨zs', hleft, rfl⟩ := hfragments.of_closed
    obtain ⟨ca, cb, za, _, ha, hopening, rfl, rfl⟩ := hleft.of_append
    obtain ⟨zb, hb, rfl⟩ := hopening.of_text_cons
    refine ⟨[(ca, za), (cb, zb)], .cons ha (.cons hb .nil), ?_, ?_⟩
    · simp [Call.inEmissionOrder, hn]
    · simp [FunctionForm.fragments, TemplatePart.fragments]
  | @swapped before between after hn _ =>
    obtain ⟨a, b, rfl⟩ := List.length_eq_two.mp hc
    have hfragments : Fills (.text before :: (b ++ .text between :: a ++ [.text after])) cs zs := by
      simpa [FunctionForm.fragments, TemplatePart.fragments] using h
    obtain ⟨zs', hrest, rfl⟩ := hfragments.of_text_cons
    obtain ⟨zs', hleft, rfl⟩ := hrest.of_closed
    obtain ⟨cb, ca, zb, _, hb, hbetween, rfl, rfl⟩ := hleft.of_append
    obtain ⟨za, ha, rfl⟩ := hbetween.of_text_cons
    refine ⟨[(ca, za), (cb, zb)], .cons ha (.cons hb .nil), ?_, ?_⟩
    · simp [Call.inEmissionOrder, hn]
    · simp [FunctionForm.fragments, TemplatePart.fragments]
  | @around before after hn _ =>
    obtain ⟨a, rfl⟩ := List.length_eq_one_iff.mp hc
    have hfragments : Fills (.text before :: (a ++ [.text after])) cs zs := by
      simpa [FunctionForm.fragments, FunctionForm.around, TemplatePart.fragments] using h
    obtain ⟨zs', hrest, rfl⟩ := hfragments.of_text_cons
    obtain ⟨za, ha, rfl⟩ := hrest.of_closed
    refine ⟨[(cs, za)], .cons ha .nil, ?_, ?_⟩
    · simp
    · simp [FunctionForm.fragments, FunctionForm.around, TemplatePart.fragments]
  | constant hn _ =>
    obtain rfl := List.length_eq_zero_iff.mp hc
    obtain ⟨_, hnil, rfl⟩ := of_text_cons h
    obtain ⟨rfl, rfl⟩ := hnil.of_nil
    exact ⟨[], .nil, by simp, rfl⟩
  | passing _ hn _ =>
    obtain ⟨zs', hrest, rfl⟩ := of_text_cons h
    obtain ⟨zs', hparts, rfl⟩ := hrest.of_closed
    obtain ⟨filled, hfilled, rfl, rfl⟩ := hparts.of_commaSeparated
    refine ⟨filled, hfilled, ?_, rfl⟩
    simp [Call.inEmissionOrder, hn]

end Fills

end Fragment

namespace Expression

open Fragment

/-- The skeleton shows the expression with these columns, and fragments without properties spell
it. -/
structure Shows (e : Expression) (cs : List String) (zs : List Fragment) (k : Skeleton) : Prop where
  outline_eq : e.skeleton? (fun _ => some "") = some k.outline
  columns_eq : k.columns = cs
  spells : Spells (fun _ => none) zs k

/-- What there are skeletons for one by one, there are skeletons for in a list. -/
theorem exists_shows {arguments : List Expression} {parts : List (List Fragment)}
    {filled : List (List String × List Fragment)} (hfilled : Fills.Parts parts filled)
    (h : List.Forall₂ (fun a part => ∀ cs zs, Fills part cs zs → ∃ k, a.Shows cs zs k)
      arguments parts) :
    ∃ ks, List.Forall₂ (fun a k => a.skeleton? (fun _ => some "") = some (Skeleton.outline k))
        arguments ks ∧
      ks.map Skeleton.columns = filled.map Prod.fst ∧
      List.Forall₂ (Spells fun _ => none) (filled.map Prod.snd) ks := by
  induction hfilled generalizing arguments with
  | nil =>
    cases h
    exact ⟨[], .nil, rfl, .nil⟩
  | cons hpart _ ih =>
    obtain ⟨a, arguments', ha, harguments, rfl⟩ := List.forall₂_cons_right_iff.mp h
    obtain ⟨k, hk⟩ := ha _ _ hpart
    obtain ⟨ks, houtlines, hcolumns, hspells⟩ := ih harguments
    refine ⟨k :: ks, .cons hk.outline_eq houtlines, ?_, .cons hk.spells hspells⟩
    rw [List.map_cons, List.map_cons, hk.columns_eq, hcolumns]

private theorem not_deep_of_fills {depth : ℕ} {e : Expression} {cs : List String}
    {zs : List Fragment} (h : Fills (e.fragments depth) cs zs) : ¬maxDepth ≤ depth := by
  intro hdeep
  rw [fragments.eq_def, if_pos hdeep] at h
  cases h

private theorem fills_constant {v : Value} {cs : List String} {zs : List Fragment}
    (h : Fills [constantFragment v] cs zs) : cs = [] ∧ zs = [constantFragment v] := by
  generalize hf : constantFragment v = f at h
  unfold constantFragment at hf
  split at hf <;> subst hf <;> cases h <;> next h => exact ⟨h.of_nil.1, by rw [h.of_nil.2]⟩

/-- Fragments of an expression that are filled with columns spell a skeleton of it with these
columns. -/
theorem shows_of_fills {depth : ℕ} {e : Expression} {cs : List String} {zs : List Fragment}
    (h : Fills (e.fragments depth) cs zs) : ∃ k, e.Shows cs zs k := by
  induction e generalizing depth cs zs with
  | convert source target ih =>
    have hdeep := not_deep_of_fills h
    rw [fragments, if_neg hdeep] at h
    obtain ⟨k, hk⟩ := ih h
    exact ⟨k, hk.outline_eq, hk.columns_eq, hk.spells⟩
  | constant v =>
    have hdeep := not_deep_of_fills h
    rw [fragments, if_neg hdeep] at h
    obtain ⟨rfl, rfl⟩ := fills_constant h
    refine ⟨if v.isNull then .null else .hole, ?_, ?_, spells_constant v⟩ <;>
      cases hv : v.isNull <;> simp [skeleton?, hv, Skeleton.outline, Skeleton.columns]
  | binary operator left right ihl ihr =>
    have hdeep := not_deep_of_fills h
    rw [fragments, if_neg hdeep] at h
    rw [List.cons_append] at h
    obtain ⟨_, hclosed, rfl⟩ := h.of_text_cons
    obtain ⟨_, hoperands, rfl⟩ := hclosed.of_closed
    obtain ⟨cl, cr, zl, _, hl, hoperator, rfl, rfl⟩ := hoperands.of_append
    rw [operatorFragment, BinaryOperator.tokenFor?_eq] at hoperator
    cases hw : operator.word? left right with
    | none =>
      rw [hw] at hoperator
      cases hoperator
    | some word =>
      rw [hw] at hoperator
      obtain ⟨zr, hr, rfl⟩ := hoperator.of_text_cons
      obtain ⟨l, hl⟩ := ihl hl
      obtain ⟨r, hr⟩ := ihr hr
      refine ⟨.binary word l r, ?_, ?_, ?_⟩
      · exact skeleton?_binary_eq_some_iff.mpr
          ⟨word, _, _, hw, hl.outline_eq, hr.outline_eq, rfl⟩
      · rw [Skeleton.columns, hl.columns_eq, hr.columns_eq]
      · exact spells_binary hl.spells hr.spells
  | unary operator operand ih =>
    have hdeep := not_deep_of_fills h
    rw [fragments, if_neg hdeep] at h
    cases operator with
    | not =>
      obtain ⟨zs, hoperand, rfl⟩ := Fills.of_text_cons h
      obtain ⟨k, hk⟩ := ih hoperand
      refine ⟨.not k, ?_, hk.columns_eq, spells_not hk.spells⟩
      exact skeleton?_unary_eq_some_iff.mpr ⟨rfl, _, hk.outline_eq, rfl⟩
    | negate => cases h
  | property p =>
    have hdeep := not_deep_of_fills h
    rw [fragments, if_neg hdeep] at h
    cases h with
    | column _ c h =>
      obtain ⟨rfl, rfl⟩ := h.of_nil
      refine ⟨.column c, rfl, rfl, rfl, fun write n => ?_⟩
      simp [written, Skeleton.text]
  | call name arguments ih =>
    have hdeep := not_deep_of_fills h
    rw [fragments, if_neg hdeep] at h
    have hknown := Call.isSome_ofCall?_iff name arguments.length
    cases hform : FunctionForm.ofCall? name arguments.length with
    | none =>
      rw [hform] at h
      cases h
    | some form =>
      rw [hform] at h hknown
      rw [argumentFragments_eq_map] at h
      obtain ⟨filled, hfilled, rfl, rfl⟩ := h.of_call (by rwa [List.length_map])
      obtain ⟨ks, houtlines, hcolumns, hspells⟩ := exists_shows hfilled
        (List.forall₂_map_right_iff.mpr (List.forall₂_same.mpr fun a ha cs zs h => ih a ha h))
      refine ⟨.call name ks, ?_, ?_, ?_⟩
      · refine skeleton?_call_eq_some_iff.mpr ⟨hknown.mp rfl, ks.map Skeleton.outline, ?_, ?_⟩
        · exact List.forall₂_map_right_iff.mpr houtlines
        · rw [Skeleton.outline, Skeleton.argumentOutlines_eq_map]
      · rw [Skeleton.columns, Skeleton.argumentColumns_eq_map, hcolumns]
      · refine spells_call ?_ hspells
        rwa [List.length_map, ← hfilled.length_eq, List.length_map]
  | collection items | lambda q s x p | rangeVariable x =>
    have hdeep := not_deep_of_fills h
    rw [fragments, if_neg hdeep] at h
    cases h

end Expression

end FilterClause
