import FilterClause.Proofs.Emission.Pieces
import FilterClause.Proofs.Emission.Readability
import FilterClause.Proofs.Resolver
import Mathlib.Data.List.Chain

/-!
# Finding the placeholders

A text is scanned from left to right for the placeholders of a style, and each one is taken as long
as possible. In what emission writes, a placeholder is followed by nothing that could belong to it,
and the characters that placeholders begin with stand nowhere else. So the scan finds the
placeholders that were written, in the order of the parameters that they stand for.
-/

namespace FilterClause

/-- The characters that placeholders begin with. -/
def marks : List Char := ['@', '?', '$']

def IsUnmarked (s : List Char) : Prop := ∀ c ∈ s, c ∉ marks

instance (s : List Char) : Decidable (IsUnmarked s) :=
  List.decidableBAll (· ∉ marks) s

/-- What a scan finds: placeholders, and the characters between them. -/
inductive Scanned where
  | placeholder (text : String)
  | other (c : Char)

def Scanned.placeholder? : Scanned → Option String
  | placeholder t => some t
  | other _ => none

/-- A sign with all digits behind it, if there are any, and what follows them. -/
def numbered? (sign : String) (s : List Char) : Option (String × List Char) :=
  if s.takeWhile Char.isDigit = [] then none
  else some (sign ++ String.ofList (s.takeWhile Char.isDigit), s.dropWhile Char.isDigit)

namespace PlaceholderStyle

/-- The longest placeholder that the characters begin with, and what follows it. -/
def first? : PlaceholderStyle → List Char → Option (String × List Char)
  | atP, '@' :: 'p' :: s => numbered? "@p" s
  | question, '?' :: s => some ("?", s)
  | dollar, '$' :: s => numbered? "$" s
  | _, _ => none

theorem length_of_numbered? {sign t : String} {s rest : List Char}
    (h : numbered? sign s = some (t, rest)) : rest.length ≤ s.length := by
  unfold numbered? at h
  split at h
  · cases h
  · cases h
    exact (List.dropWhile_suffix _).length_le

theorem length_of_first? {style : PlaceholderStyle} {t : String} {s rest : List Char}
    (h : style.first? s = some (t, rest)) : rest.length < s.length := by
  unfold first? at h
  split at h
  · exact Nat.lt_succ_of_le (Nat.le_succ_of_le (length_of_numbered? h))
  · cases h
    exact Nat.lt_succ_self _
  · exact Nat.lt_succ_of_le (length_of_numbered? h)
  · cases h

/-- Scan characters from left to right. -/
def scan (style : PlaceholderStyle) : List Char → List Scanned
  | [] => []
  | c :: s =>
    match _h : style.first? (c :: s) with
    | some (t, rest) => .placeholder t :: scan style rest
    | none => .other c :: scan style s
termination_by s => s.length
decreasing_by
  · exact length_of_first? _h
  · exact Nat.lt_succ_self _

theorem scan_of_first? {style : PlaceholderStyle} {t : String} {s rest : List Char}
    (h : style.first? s = some (t, rest)) : style.scan s = .placeholder t :: style.scan rest := by
  cases s with
  | nil => cases style <;> cases h
  | cons c s =>
    rw [scan]
    split
    · next h' =>
      rw [h] at h'
      cases h'
      rfl
    · next h' =>
      rw [h] at h'
      cases h'

theorem scan_unmarked {t : List Char} (ht : IsUnmarked t) (style : PlaceholderStyle)
    (s : List Char) : style.scan (t ++ s) = t.map .other ++ style.scan s := by
  induction t with
  | nil => rfl
  | cons c t ih =>
    have hc : c ∉ marks := ht c (by simp)
    have hn : style.first? (c :: (t ++ s)) = none := by
      unfold first?
      split <;> simp_all [marks]
    rw [List.cons_append, scan, List.map_cons, List.cons_append,
      ← ih fun d hd => ht d (by simp [hd])]
    split
    · next h' =>
      rw [hn] at h'
      cases h'
    · rfl

theorem numbered?_toString (sign : String) (n : ℕ) {s : List Char}
    (hs : ∀ c ∈ s.head?, ¬c.isDigit) :
    numbered? sign ((toString n).toList ++ s) = some (sign ++ toString n, s) := by
  have hd := Skeleton.isDigit_toString n
  have hne : (toString n).toList ≠ [] := by simp
  rw [numbered?, Skeleton.takeWhile_word hd hs, Skeleton.dropWhile_word hd hs, if_neg hne,
    String.ofList_toList]

/-- A placeholder is found where nothing follows that could belong to it. -/
theorem scan_render (style : PlaceholderStyle) (n : ℕ) {s : List Char}
    (hs : ∀ c ∈ s.head?, ¬c.isDigit) :
    style.scan ((style.render n).toList ++ s) = .placeholder (style.render n) :: style.scan s := by
  apply scan_of_first?
  cases style with
  | atP =>
    have h := numbered?_toString "@p" n hs
    simpa [render, first?] using h
  | question => simp [render, first?]
  | dollar =>
    have h := numbered?_toString "$" (n + 1) hs
    simpa [render, first?] using h

end PlaceholderStyle

/-- What follows a placeholder in a text begins with a blank, a closing bracket or a comma. -/
def beginsEnding (t : String) : Bool :=
  match t.toList with
  | [] => false
  | c :: _ => c ∈ [' ', ')', ',']

theorem not_isDigit_of_beginsEnding {t : String} (h : beginsEnding t) (s : List Char) :
    ∀ c ∈ (t.toList ++ s).head?, ¬c.isDigit := by
  unfold beginsEnding at h
  split at h
  · cases h
  · next c cs ht =>
    have hd : ∀ d ∈ [' ', ')', ','], ¬d.isDigit := by simp
    intro d hc
    rw [ht] at hc
    cases hc
    exact hd c (of_decide_eq_true h)

namespace TemplatePart

def isEnding : TemplatePart → Bool
  | text t => beginsEnding t
  | argument _ => false

/-- Each argument is followed by a text that ends it, and no text has a mark. -/
def separates : List TemplatePart → Bool
  | [] => true
  | text t :: parts => decide (IsUnmarked t.toList) && separates parts
  | argument _ :: parts => parts.head?.all isEnding && separates parts

end TemplatePart

namespace FunctionForm

def separates : FunctionForm → Bool
  | template _ parts => TemplatePart.separates parts
  | passing name => IsUnmarked (name ++ "(").toList

theorem separates_of_ofName? {name : String} {form : FunctionForm} (h : ofName? name = some form) :
    form.separates := by
  unfold ofName? at h
  split at h <;> cases h <;> decide

end FunctionForm

namespace Fragment

/-- A placeholder before this fragment ends there. -/
def isEnding : Fragment → Bool
  | text t => beginsEnding t
  | refusal _ => true
  | bound _ | column _ => false

def IsUnmarked : Fragment → Prop
  | text t => FilterClause.IsUnmarked t.toList
  | bound _ | column _ | refusal _ => True

/-- Every placeholder ends where it should, and no text has a mark. -/
structure Separated (fragments : List Fragment) : Prop where
  chain : fragments.IsChain fun f g => f.isBound → g.isEnding
  unmarked : ∀ f ∈ fragments, f.IsUnmarked

theorem separated_nil : Separated [] := ⟨.nil, by simp⟩

theorem Separated.append {fs gs : List Fragment} (hf : Separated fs) (hg : Separated gs)
    (h : ∀ g ∈ gs.head?, g.isEnding) : Separated (fs ++ gs) := by
  constructor
  · exact List.isChain_append.mpr ⟨hf.chain, hg.chain, fun _ _ g hg _ => h g hg⟩
  · exact List.forall_mem_append.mpr ⟨hf.unmarked, hg.unmarked⟩

theorem Separated.cons {f : Fragment} (hb : f.isBound = false) (hu : f.IsUnmarked)
    {fs : List Fragment} (h : Separated fs) : Separated (f :: fs) := by
  constructor
  · exact List.isChain_cons.mpr ⟨fun _ _ hf => absurd (hb.symm.trans hf) (by simp), h.chain⟩
  · exact List.forall_mem_cons.mpr ⟨hu, h.unmarked⟩

theorem Separated.text_cons {t : String} (ht : FilterClause.IsUnmarked t.toList)
    {fs : List Fragment} (h : Separated fs) : Separated (text t :: fs) :=
  h.cons (f := text t) rfl ht

theorem separated_refusal (error : EmissionError) : Separated [refusal error] :=
  separated_nil.cons (f := refusal error) rfl trivial

theorem separated_flatMap {parts : List TemplatePart} (hp : TemplatePart.separates parts)
    {arguments : List (List Fragment)} (ha : ∀ a ∈ arguments, Separated a) :
    Separated (parts.flatMap (TemplatePart.fragments arguments)) := by
  induction parts with
  | nil => exact separated_nil
  | cons part parts ih =>
    cases part with
    | text t =>
      simp only [TemplatePart.separates, Bool.and_eq_true, decide_eq_true_eq] at hp
      exact (ih hp.2).text_cons hp.1
    | argument index =>
      simp only [TemplatePart.separates, Bool.and_eq_true] at hp
      have hs : Separated (arguments.getD index []) := by
        rw [List.getD_eq_getElem?_getD]
        cases h : arguments[index]? with
        | none => exact separated_nil
        | some a => exact ha a (List.mem_of_getElem? h)
      apply hs.append (ih hp.2)
      intro g hg
      cases parts with
      | nil => cases hg
      | cons part' parts =>
        cases part' with
        | text t =>
          cases hg
          exact hp.1
        | argument _ => cases hp.1

theorem separated_commaSeparated {parts : List (List Fragment)} (h : ∀ a ∈ parts, Separated a) :
    Separated (commaSeparated parts) := by
  induction parts with
  | nil => exact separated_nil
  | cons part parts ih =>
    cases parts with
    | nil => exact h part (by simp)
    | cons part' parts =>
      have hp : Separated (commaSeparated (part' :: parts)) := ih fun a ha => h a (by simp [ha])
      have hc : Separated (text ", " :: commaSeparated (part' :: parts)) :=
        hp.text_cons (by decide)
      apply (h part (by simp)).append hc
      intro g hg
      cases hg
      decide

/-- A call separates its arguments, whatever its form. -/
theorem separated_call {name : String} {count : ℕ} {form : FunctionForm}
    (h : FunctionForm.ofCall? name count = some form) {arguments : List (List Fragment)}
    (ha : ∀ a ∈ arguments, Separated a) : Separated (form.fragments arguments) := by
  have hf := FunctionForm.separates_of_ofName? (Option.filter_eq_some_iff.mp h).1
  cases form with
  | template arity parts => exact separated_flatMap hf ha
  | passing name =>
    have hn : FilterClause.IsUnmarked (name ++ "(").toList := of_decide_eq_true hf
    have hc : Separated [text ")"] := separated_nil.text_cons (by decide)
    apply Separated.append ((separated_commaSeparated ha).text_cons hn) hc
    intro g hg
    cases hg
    decide

end Fragment

namespace Expression

open Fragment

theorem operatorFragment_separates (operator : BinaryOperator) (left right : Expression) :
    (operatorFragment operator left right).isBound = false ∧
      (operatorFragment operator left right).IsUnmarked ∧
      (operatorFragment operator left right).isEnding := by
  have hwords : ∀ word ∈ Skeleton.words, FilterClause.IsUnmarked (" " ++ word ++ " ").toList ∧
      beginsEnding (" " ++ word ++ " ") := by decide
  rw [operatorFragment, BinaryOperator.tokenFor?_eq]
  cases h : operator.word? left right with
  | none => exact ⟨rfl, trivial, rfl⟩
  | some word => exact ⟨rfl, hwords word (BinaryOperator.ofWord?_of_word? h).2⟩

private theorem separated_of_shallow {depth : ℕ} {e : Expression}
    (h : ¬maxDepth ≤ depth → Separated (e.fragments depth)) : Separated (e.fragments depth) := by
  by_cases hd : maxDepth ≤ depth
  · rw [fragments.eq_def, if_pos hd]
    exact separated_refusal _
  · exact h hd

/-- The layout of an expression separates its placeholders. -/
theorem separated_fragments (depth : ℕ) (e : Expression) : Separated (e.fragments depth) := by
  refine separated_of_shallow fun hd => ?_
  induction e generalizing depth with
  | convert source target ih =>
    rw [fragments, if_neg hd]
    exact separated_of_shallow (ih (depth + 1))
  | constant v =>
    rw [fragments, if_neg hd, constantFragment]
    split
    · exact separated_nil.text_cons (by decide)
    · exact ⟨.singleton _, by simp [Fragment.IsUnmarked]⟩
  | binary operator left right ihl ihr =>
    have hl := separated_of_shallow (ihl (depth + 1))
    have hr := separated_of_shallow (ihr (depth + 1))
    have hc : Separated [.text ")"] := separated_nil.text_cons (by decide)
    obtain ⟨hb, hu, he⟩ := operatorFragment_separates operator left right
    have hleft := (hl.text_cons (t := "(") (by decide)).append (hr.cons hb hu) (by simpa using he)
    rw [fragments, if_neg hd]
    exact hleft.append hc (by decide)
  | unary operator operand ih =>
    rw [fragments, if_neg hd]
    cases operator with
    | not => exact (separated_of_shallow (ih (depth + 1))).text_cons (by decide)
    | negate => exact separated_refusal _
  | property p =>
    rw [fragments, if_neg hd]
    exact separated_nil.cons (f := .column p) rfl trivial
  | call name arguments ih =>
    rw [fragments, if_neg hd]
    cases h : FunctionForm.ofCall? name arguments.length with
    | none => exact separated_refusal _
    | some form =>
      rw [argumentFragments_eq_map]
      apply separated_call h
      intro part hp
      obtain ⟨a, ha, rfl⟩ := List.mem_map.mp hp
      exact separated_of_shallow (ih a ha (depth + 1))
  | collection items | lambda q s x p | rangeVariable x =>
    rw [fragments, if_neg hd]
    exact separated_refusal _

end Expression

namespace Piece

/-- What a scan finds of a piece that stands apart. -/
def scanned : Piece → List Scanned
  | text t => t.toList.map .other
  | placeholder t _ => [.placeholder t]
  | column _ name => name.toList.map .other

theorem filterMap_scanned (xs : List Piece) :
    (xs.flatMap scanned).filterMap Scanned.placeholder? =
      (xs.filterMap placeholder?).map Prod.fst := by
  induction xs with
  | nil => rfl
  | cons x xs ih =>
    have ho : ∀ s : List Char, (s.map Scanned.other).filterMap Scanned.placeholder? = [] := by
      intro s
      simp [Scanned.placeholder?]
    rw [List.flatMap_cons, List.filterMap_append, ih, List.filterMap_cons]
    cases x with
    | text t => rw [scanned, ho, placeholder?, List.nil_append]
    | placeholder t v => rfl
    | column p name => rw [scanned, ho, placeholder?, List.nil_append]

end Piece

section Scan

variable {σ : Type} {resolve : Resolver σ}

/-- What follows a placeholder does not go on with a digit. -/
theorem not_isDigit_join {v : Value} {fs : List Fragment}
    (h : Fragment.Separated (.bound v :: fs)) (state : σ) (parameters : Parameters) :
    ∀ c ∈ (Piece.join (Fragment.pieces resolve fs state parameters)).toList.head?,
      ¬c.isDigit := by
  have hf := (List.isChain_cons.mp h.chain).1
  cases fs with
  | nil => simp [Fragment.pieces, Piece.join]
  | cons f fs =>
    have he : f.isEnding := hf f rfl rfl
    cases f with
    | text t =>
      rw [Fragment.pieces, Piece.join, String.toList_append]
      exact not_isDigit_of_beginsEnding he _
    | refusal e => simp [Fragment.pieces, Piece.join]
    | bound v' => cases he
    | column p => cases he

theorem scan_join_unmarked {style : PlaceholderStyle} {x : Piece} {xs : List Piece}
    (hx : x.scanned = x.written.toList.map .other) (hu : IsUnmarked x.written.toList)
    (h : style.scan (Piece.join xs).toList = xs.flatMap Piece.scanned ∧
      ∀ c, .other c ∈ xs.flatMap Piece.scanned → c ∉ marks) :
    style.scan (Piece.join (x :: xs)).toList = (x :: xs).flatMap Piece.scanned ∧
      ∀ c, .other c ∈ (x :: xs).flatMap Piece.scanned → c ∉ marks := by
  rw [Piece.join, String.toList_append, style.scan_unmarked hu, h.1, List.flatMap_cons, hx]
  refine ⟨rfl, fun c hc => ?_⟩
  rcases List.mem_append.mp hc with hc | hc
  · obtain ⟨d, hd, hdc⟩ := List.mem_map.mp hc
    cases hdc
    exact hu c hd
  · exact h.2 c hc

/-- A scan finds the placeholders that were written, and no marks elsewhere. -/
theorem scan_join_pieces (hc : ∀ p s c s', resolve p s = (some c, s') → IsUnmarked c.toList)
    {fs : List Fragment} (h : Fragment.Separated fs) (state : σ) (parameters : Parameters) :
    parameters.style.scan (Piece.join (Fragment.pieces resolve fs state parameters)).toList =
        (Fragment.pieces resolve fs state parameters).flatMap Piece.scanned ∧
      ∀ c, .other c ∈ (Fragment.pieces resolve fs state parameters).flatMap Piece.scanned →
        c ∉ marks := by
  induction fs generalizing state parameters with
  | nil => simp [Fragment.pieces, Piece.join, PlaceholderStyle.scan]
  | cons f fs ih =>
    have hs : Fragment.Separated fs :=
      ⟨(List.isChain_cons.mp h.chain).2, fun g hg => h.unmarked g (by simp [hg])⟩
    cases f with
    | text t =>
      have ht : IsUnmarked t.toList := h.unmarked (.text t) (by simp)
      rw [Fragment.pieces]
      exact scan_join_unmarked rfl ht (ih hs state parameters)
    | bound v =>
      obtain ⟨hrest, hmarks⟩ := ih hs state (parameters.append v)
      rw [Parameters.style_append] at hrest
      rw [Fragment.pieces, Piece.join, String.toList_append, Piece.written,
        Parameters.nextPlaceholder,
        PlaceholderStyle.scan_render _ _ (not_isDigit_join h _ _), hrest]
      refine ⟨rfl, fun c hm => hmarks c ?_⟩
      simpa [Piece.scanned] using hm
    | column p =>
      rw [Fragment.pieces]
      split
      · next c state' hp => exact scan_join_unmarked rfl (hc _ _ _ _ hp) (ih hs state' parameters)
      · simp [Piece.join, PlaceholderStyle.scan]
    | refusal e => simp [Fragment.pieces, Piece.join, PlaceholderStyle.scan]

end Scan

/-- The columns of plain identifiers have no marks. -/
theorem Property.isUnmarked_plainColumn? {p : Property} {c : String} (h : p.plainColumn? = some c) :
    IsUnmarked c.toList := by
  have hm : ∀ d ∈ marks, ¬isIdentifierChar d := by simp [marks, isIdentifierChar]
  exact (forall_mem_plainColumn? (fun c hc hd => hm c hd hc) (by decide) h).2

namespace Expression

variable {σ : Type} {column? : Property → Option String}

/-- If no column has a mark, then a scan of the text of an expression finds the placeholders of the
constants that are bound, in the order in which they are bound, and no marks elsewhere. The columns
of plain identifiers have no marks. -/
theorem emit_scan (hc : ∀ p c, column? p = some c → IsUnmarked c.toList) {e : Expression}
    {state : σ} {parameters : Parameters} {sql : String}
    (h : (e.emit (.ofFunction column?) state parameters).result = .ok sql) :
    ((e.emit (.ofFunction column?) state parameters).parameters.values =
        parameters.values ++ e.constants ∧
      (parameters.style.scan sql.toList).filterMap Scanned.placeholder? =
        (List.range' parameters.size e.constants.length).map parameters.style.render ∧
      ∀ c, .other c ∈ parameters.style.scan sql.toList → c ∉ marks) ∧
    ∀ p c, Property.plainColumn? p = some c → IsUnmarked c.toList := by
  have hvalues := congrArg Parameters.values (parameters_of_emit_ok h)
  obtain ⟨values, _, hp, hv⟩ := e.parameters_emit (.ofFunction column?) state parameters
  have hconstants : values = e.constants := by
    rw [hp] at hvalues
    exact List.append_cancel_left hvalues
  subst hconstants
  have hcolumns : ∀ p (s : σ) c s', Resolver.ofFunction column? p s = (some c, s') →
      IsUnmarked c.toList := fun p s c s' hp => hc p c (congrArg Prod.fst hp)
  obtain ⟨hscan, hmarks⟩ :=
    scan_join_pieces hcolumns (e.separated_fragments 0) state parameters
  rw [← Fragment.join_pieces h] at hscan
  refine ⟨⟨hvalues, ?_, ?_⟩, fun p c => Property.isUnmarked_plainColumn?⟩
  · have hv' := congrArg (List.map Prod.fst) hv
    rw [hscan, Piece.filterMap_scanned, ← PlaceholderStyle.map_fst_placeholders]
    exact hv'
  · rw [hscan]
    exact hmarks

theorem emit_scan_indexof :
    let e : Expression := .call "indexof" [.constant (.text "@p1"),
      .binary .add (.property ⟨some "t", "a1"⟩) (.constant (.int 5))]
    let p : Parameters := ⟨.atP, List.replicate 9 .null⟩
    let o := e.emit (.ofFunction Property.plainColumn?) () p
    let sql := "CHARINDEX((t.a1 + @p9), @p10)"
    o.result = .ok sql ∧ o.parameters.values = p.values ++ [.int 5, .text "@p1"] ∧
      (PlaceholderStyle.atP.scan sql.toList).filterMap Scanned.placeholder? = ["@p9", "@p10"] ∧
      ∀ c, .other c ∈ PlaceholderStyle.atP.scan sql.toList → c ∉ marks := by
  intro e p o sql
  have h : o.result = .ok sql := by decide
  obtain ⟨hv, hs, hm⟩ := (emit_scan (fun _ _ => Property.isUnmarked_plainColumn?) h).1
  exact ⟨h, hv, hs.trans (by decide), hm⟩

end Expression

end FilterClause
