import FilterClause.Proofs.Expression.Json
import FilterClause.Proofs.Json.Spelling

/-!
# Spellings of expressions

An expression is read from every spelling of it, with blanks between any two tokens, as long as the
spelling opens no more arrays and objects than a reader may; the levels of unknown members do not
count. Its own JSON is one of its spellings.
-/

namespace FilterClause

open Json

namespace Value

def spelling : Value → Spelling
  | null => .bare "null"
  | bool b => .carrying "bool" (.verbatim (.bool b))
  | int n => .carrying "int" (.verbatim (.number (.ofInt n.toInt)))
  | float x => .carrying "float" (.verbatim (floatJson x))
  | text s => .carrying "text" (.string s)
  | blob bytes =>
    .carrying "blob" (.list (bytes.map fun b => .verbatim (.number (.ofInt b.toNat))))
  | date d => .carrying "date" (.string d.text)
  | timestamp t => .carrying "date_time_offset" (.string (t.text .letter))

theorem accepts_carrying {α : Type} {bound : ℕ} {tag : String} {read : Reader α}
    {make : α → Value} {S : Spelling} {a : α} (hcase : caseOf tag = some (carrying read make))
    (h : Accepts bound read S a) : Accepts (bound + 1) Value.read (.carrying tag S) (make a) :=
  Accepts.carrying hcase (h.map make)

theorem accepts_denoted {α : Type} {bound : ℕ} {denote : String → Option α} {s : String} {a : α}
    (h : denote s = some a) : Accepts bound (readDenoted denote) (.string s) a :=
  accepts_string fun _ => by simp [readDenoted, readString, bind, Except.bind, h]

/-- A value is read from its spellings, if it is finite and its digits read back. -/
theorem accepts {v : Value} (hv : v.IsFinite) (hdigits : ∀ x, v = .float x → x.DigitsReadBack)
    (bound : ℕ) : Accepts bound Value.read v.spelling v := by
  refine Accepts.mono ?_ (Nat.le_succ bound)
  cases v with
  | null => exact accepts_bare rfl
  | bool b => exact accepts_carrying rfl ((reads_bool bound b).accepts (.bool b) trivial)
  | int n =>
    have hnumber := (reads_int bound n).accepts (.number _ (Numeral.ofInt_isWellFormed _)) trivial
    exact accepts_carrying rfl hnumber
  | float x =>
    have hwell : (floatJson x).IsWellFormed := by
      rw [floatJson, if_pos (show x.isFinite = true from hv)]
      exact .number _ (Numeral.ofBinary64_isWellFormed x)
    exact accepts_carrying rfl ((reads_float bound fun _ => hdigits x rfl).accepts hwell hv)
  | text s => exact accepts_carrying rfl (accepts_string fun _ => rfl)
  | blob bytes =>
    have hbytes : Accepts (bound + 1) (readList readByte)
        (.list (bytes.map fun b => .verbatim (.number (.ofInt b.toNat)))) bytes :=
      Accepts.list fun b _ =>
        (reads_byte bound b).accepts (.number _ (Numeral.ofInt_isWellFormed _)) trivial
    exact accepts_carrying rfl (hbytes.mono (Nat.le_succ bound))
  | date d => exact accepts_carrying rfl (accepts_denoted d.ofText?_text)
  | timestamp t => exact accepts_carrying rfl (accepts_denoted (t.ofText?_text .letter))

end Value

namespace Value

theorem includes_toJson (v : Value) : v.spelling.Includes v.toJson := by
  cases v with
  | null => exact includes_bare "null"
  | bool b => exact (includes_verbatim _).carrying "bool"
  | int n => exact (includes_verbatim _).carrying "int"
  | float x => exact (includes_verbatim _).carrying "float"
  | text s => exact (includes_string s).carrying "text"
  | blob bytes => exact (includes_list fun b _ => includes_verbatim _).carrying "blob"
  | date d => exact (includes_string d.text).carrying "date"
  | timestamp t => exact (includes_string (t.text .letter)).carrying "date_time_offset"

end Value

namespace Property

def spelling (p : Property) : Spelling :=
  .record [⟨"entity", .optionalString p.entity, p.entity = none⟩, ⟨"name", .string p.name, False⟩]

/-- The draft of a property with the fields of these names. -/
def held (p : Property) (known : List String) : Draft :=
  ⟨Json.held known "entity" p.entity, Json.held known "name" p.name⟩

theorem accepts (p : Property) (bound : ℕ) : Accepts (bound + 1) Property.read p.spelling p := by
  have hentity : Accepts bound (readOption readString) (.optionalString p.entity) p.entity :=
    accepts_optionalString p.entity
  have hname : Accepts bound readString (.string p.name) p.name := accepts_string fun _ => rfl
  refine accepts_record p.held (.cons (hentity.takes (fun _ => rfl) (by simp [held]))
    (.cons (hname.takes (fun _ => rfl) (by simp [held])) .nil)) (by simp) fun known h => ?_
  simp only [List.forall_mem_cons, false_or] at h
  obtain ⟨he, hn, -⟩ := h
  simp [Draft.finish, held, held_of_mem hn, join_held he]

theorem includes_toJson (p : Property) : p.spelling.Includes p.toJson := by
  obtain ⟨entity, name⟩ := p
  have hname : IncludesMembers [⟨"name", .string name, False⟩] [("name", .string name)] :=
    .cons (includes_string name) includesMembers_nil
  cases entity with
  | none => exact (hname.skip rfl).record
  | some entity => exact (hname.cons (includes_string entity)).record

end Property

namespace Expression

mutual

def spelling : Expression → Spelling
  | convert source target =>
    .carrying "convert" <| .record
      [⟨"source", source.spelling, False⟩, ⟨"target", .optionalString target, target = none⟩]
  | constant v => .carrying "constant" v.spelling
  | binary operator left right =>
    .carrying "binary_operator" <| .record
      [⟨"kind", .bare operator.jsonName, False⟩, ⟨"left", left.spelling, False⟩,
        ⟨"right", right.spelling, False⟩]
  | unary operator operand =>
    .carrying "unary_operator" <| .record
      [⟨"kind", .bare operator.jsonName, False⟩, ⟨"operand", operand.spelling, False⟩]
  | property p => .carrying "property_access" p.spelling
  | call name arguments =>
    .carrying "function_call" <| .record
      [⟨"name", .string name, False⟩,
        ⟨"parameters", .list (listSpellings arguments), arguments = []⟩]
  | collection items => .carrying "collection" (.list (listSpellings items))
  | lambda quantifier source parameter predicate =>
    .carrying "lambda" <| .record
      [⟨"kind", .bare quantifier.jsonName, False⟩, ⟨"source", source.spelling, False⟩,
        ⟨"variable", .string parameter, False⟩, ⟨"predicate", predicate.spelling, False⟩]
  | rangeVariable name => .carrying "range_variable" (.string name)

def listSpellings : List Expression → List Spelling
  | [] => []
  | e :: es => e.spelling :: listSpellings es

end

theorem listSpellings_eq_map (es : List Expression) : listSpellings es = es.map spelling := by
  induction es with
  | nil => rfl
  | cons e es ih => rw [listSpellings, ih, List.map_cons]

section Accepts

variable {height : ℕ}

/-- A case whose content is a record is read from its spellings. -/
theorem accepts_case {δ : Type} {tag : String} {fields : List (RecordField δ)}
    {finish : δ → Option Expression} {all : List Spelling.Field} {e : Expression}
    (draft : List String → δ)
    (hcase : caseOf (readBelow height) tag =
      some (.carrying (readRecord fields (draft []) finish)))
    (hfields : List.Forall₂ (Takes height draft) fields all)
    (hnodup : (all.map Spelling.Field.name).Nodup)
    (hfinish : ∀ known, (∀ f ∈ all, f.Omittable ∨ f.name ∈ known) →
      finish (draft known) = some e) :
    Accepts (height + 1) (readBelow (height + 1)) (.carrying tag (.record all)) e :=
  (Accepts.carrying hcase (accepts_record draft hfields hnodup hfinish)).mono (Nat.le_succ _)

/-- The draft of a conversion that has the fields of these names. -/
def heldConvert (source : Expression) (target : Option String) (known : List String) :
    ConvertDraft :=
  ⟨held known "source" source, held known "target" target⟩

theorem accepts_convert {source : Expression} (target : Option String)
    (h : Accepts height (readBelow height) source.spelling source) :
    Accepts (height + 1) (readBelow (height + 1)) (convert source target).spelling
      (convert source target) := by
  have htarget : Accepts height (readOption readString) (.optionalString target) target :=
    accepts_optionalString target
  refine accepts_case (heldConvert source target) rfl
    (.cons (h.takes (fun _ => rfl) (by simp [heldConvert]))
      (.cons (htarget.takes (fun _ => rfl) (by simp [heldConvert])) .nil))
    (by simp) fun known hknown => ?_
  simp only [List.forall_mem_cons, false_or] at hknown
  obtain ⟨hs, ht, -⟩ := hknown
  simp [ConvertDraft.finish, heldConvert, held_of_mem hs, join_held ht]

/-- The draft of a binary operation that has the fields of these names. -/
def heldBinary (operator : BinaryOperator) (left right : Expression) (known : List String) :
    BinaryDraft :=
  ⟨held known "kind" operator, held known "left" left, held known "right" right⟩

theorem accepts_binary (operator : BinaryOperator) {left right : Expression}
    (hl : Accepts height (readBelow height) left.spelling left)
    (hr : Accepts height (readBelow height) right.spelling right) :
    Accepts (height + 1) (readBelow (height + 1)) (binary operator left right).spelling
      (binary operator left right) := by
  have ho : Accepts height BinaryOperator.read (.bare operator.jsonName) operator :=
    accepts_bare (by cases operator <;> rfl)
  refine accepts_case (heldBinary operator left right) rfl
    (.cons (ho.takes (fun _ => rfl) (by simp [heldBinary]))
      (.cons (hl.takes (fun _ => rfl) (by simp [heldBinary]))
        (.cons (hr.takes (fun _ => rfl) (by simp [heldBinary])) .nil)))
    (by simp) fun known hknown => ?_
  simp only [List.forall_mem_cons, false_or] at hknown
  obtain ⟨ho, hl, hr, -⟩ := hknown
  simp [BinaryDraft.finish, heldBinary, held_of_mem ho, held_of_mem hl, held_of_mem hr]

/-- The draft of a unary operation that has the fields of these names. -/
def heldUnary (operator : UnaryOperator) (operand : Expression) (known : List String) :
    UnaryDraft :=
  ⟨held known "kind" operator, held known "operand" operand⟩

theorem accepts_unary (operator : UnaryOperator) {operand : Expression}
    (h : Accepts height (readBelow height) operand.spelling operand) :
    Accepts (height + 1) (readBelow (height + 1)) (unary operator operand).spelling
      (unary operator operand) := by
  have ho : Accepts height UnaryOperator.read (.bare operator.jsonName) operator :=
    accepts_bare (by cases operator <;> rfl)
  refine accepts_case (heldUnary operator operand) rfl
    (.cons (ho.takes (fun _ => rfl) (by simp [heldUnary]))
      (.cons (h.takes (fun _ => rfl) (by simp [heldUnary])) .nil))
    (by simp) fun known hknown => ?_
  simp only [List.forall_mem_cons, false_or] at hknown
  obtain ⟨ho, h, -⟩ := hknown
  simp [UnaryDraft.finish, heldUnary, held_of_mem ho, held_of_mem h]

/-- The draft of a call that has the fields of these names. -/
def heldCall (name : String) (arguments : List Expression) (known : List String) : CallDraft :=
  ⟨held known "name" name, held known "parameters" arguments⟩

theorem accepts_call (name : String) {arguments : List Expression}
    (h : ∀ a ∈ arguments, Accepts height (readBelow height) a.spelling a) :
    Accepts (height + 1) (readBelow (height + 1)) (call name arguments).spelling
      (call name arguments) := by
  have hname : Accepts height readString (.string name) name := accepts_string fun _ => rfl
  have hlist := (Accepts.list h).mono (Nat.le_succ height)
  rw [← listSpellings_eq_map] at hlist
  refine accepts_case (heldCall name arguments) rfl
    (.cons (hname.takes (fun _ => rfl) (by simp [heldCall]))
      (.cons (hlist.takes (fun _ => rfl) (by simp [heldCall])) .nil))
    (by simp) fun known hknown => ?_
  simp only [List.forall_mem_cons, false_or] at hknown
  obtain ⟨hn, ha, -⟩ := hknown
  simp [CallDraft.finish, heldCall, held_of_mem hn, getD_held ha]

theorem accepts_collection {items : List Expression}
    (h : ∀ a ∈ items, Accepts height (readBelow height) a.spelling a) :
    Accepts (height + 1) (readBelow (height + 1)) (collection items).spelling
      (collection items) := by
  have hlist := ((Accepts.list h).mono (Nat.le_succ height)).map collection
  rw [← listSpellings_eq_map] at hlist
  exact (Accepts.carrying rfl hlist).mono le_rfl

/-- The draft of a lambda that has the fields of these names. -/
def heldLambda (quantifier : Quantifier) (source : Expression) (parameter : String)
    (predicate : Expression) (known : List String) : LambdaDraft :=
  ⟨held known "kind" quantifier, held known "source" source, held known "variable" parameter,
    held known "predicate" predicate⟩

theorem accepts_lambda (quantifier : Quantifier) (parameter : String)
    {source predicate : Expression}
    (hs : Accepts height (readBelow height) source.spelling source)
    (hp : Accepts height (readBelow height) predicate.spelling predicate) :
    Accepts (height + 1) (readBelow (height + 1))
      (lambda quantifier source parameter predicate).spelling
      (lambda quantifier source parameter predicate) := by
  have hq : Accepts height Quantifier.read (.bare quantifier.jsonName) quantifier :=
    accepts_bare (by cases quantifier <;> rfl)
  have hv : Accepts height readString (.string parameter) parameter := accepts_string fun _ => rfl
  refine accepts_case (heldLambda quantifier source parameter predicate) rfl
    (.cons (hq.takes (fun _ => rfl) (by simp [heldLambda]))
      (.cons (hs.takes (fun _ => rfl) (by simp [heldLambda]))
        (.cons (hv.takes (fun _ => rfl) (by simp [heldLambda]))
          (.cons (hp.takes (fun _ => rfl) (by simp [heldLambda])) .nil))))
    (by simp) fun known hknown => ?_
  simp only [List.forall_mem_cons, false_or] at hknown
  obtain ⟨hq, hs, hv, hp, -⟩ := hknown
  simp [LambdaDraft.finish, heldLambda, held_of_mem hq, held_of_mem hs, held_of_mem hv,
    held_of_mem hp]

end Accepts

/-- An expression is read from its spellings, within the height that is looked at. -/
theorem accepts {e : Expression} (hfinite : e.ForallFloats fun x => x.isFinite)
    (hdigits : e.ForallFloats Binary64.DigitsReadBack) (height : ℕ) :
    Accepts height (readBelow height) e.spelling e := by
  induction height generalizing e with
  | zero => exact fun _ hl => absurd hl (Nat.not_lt_zero _)
  | succ height ih =>
    have hchild : ∀ c ∈ e.children, Accepts height (readBelow height) c.spelling c := fun c hc =>
      ih (fun x hx => hfinite x (.child hc hx)) fun x hx => hdigits x (.child hc hx)
    cases e with
    | constant v =>
      have hv := Value.accepts (forallFloats_isFinite_constant.mp hfinite)
        (forallFloats_constant.mp hdigits) height
      exact (Accepts.carrying rfl (hv.map constant)).mono le_rfl
    | property p =>
      have hp := ((p.accepts height).mono (Nat.le_succ _)).map property
      exact Accepts.carrying rfl hp
    | rangeVariable name =>
      have hname : Accepts height readString (.string name) name := accepts_string fun _ => rfl
      exact Accepts.carrying rfl (hname.map rangeVariable)
    | convert source target => exact accepts_convert target (hchild source (by simp [children]))
    | binary operator left right =>
      exact accepts_binary operator (hchild left (by simp [children]))
        (hchild right (by simp [children]))
    | unary operator operand => exact accepts_unary operator (hchild operand (by simp [children]))
    | call name arguments => exact accepts_call name hchild
    | collection items => exact accepts_collection hchild
    | lambda quantifier source parameter predicate =>
      exact accepts_lambda quantifier parameter (hchild source (by simp [children]))
        (hchild predicate (by simp [children]))

/-- A case whose content is a record is written as an object in an object. -/
theorem includes_case {tag : String} {fields : List Spelling.Field}
    {members : List (String × Json)} (h : IncludesMembers fields members) :
    Spelling.Includes (.carrying tag (.record fields)) (Value.tagged tag (.object members)) :=
  h.record.carrying tag

/-- The JSON that is written is one of the spellings. -/
theorem includes_toJson (e : Expression) : e.spelling.Includes e.toJson := by
  induction e with
  | constant v => exact v.includes_toJson.carrying "constant"
  | rangeVariable name => exact (includes_string name).carrying "range_variable"
  | property p => exact p.includes_toJson.carrying "property_access"
  | collection items ih =>
    rw [spelling, toJson, listSpellings_eq_map, listJson_eq_map]
    exact (includes_list ih).carrying "collection"
  | call name arguments ih =>
    rw [spelling, toJson, listSpellings_eq_map, listJson_eq_map]
    exact includes_case
      (.cons (includes_string name) (.cons (includes_list ih) includesMembers_nil))
  | convert source target ih =>
    cases target with
    | none => exact includes_case (.cons ih (.skip rfl includesMembers_nil))
    | some target =>
      exact includes_case (.cons ih (.cons (includes_string target) includesMembers_nil))
  | binary operator left right ihl ihr =>
    exact includes_case
      (.cons (includes_bare operator.jsonName) (.cons ihl (.cons ihr includesMembers_nil)))
  | unary operator operand ih =>
    exact includes_case (.cons (includes_bare operator.jsonName) (.cons ih includesMembers_nil))
  | lambda quantifier source parameter predicate ihs ihp =>
    exact includes_case (.cons (includes_bare quantifier.jsonName)
      (.cons ihs (.cons (includes_string parameter) (.cons ihp includesMembers_nil))))

/-- An expression without infinities and NaNs is read from every text that spells it, with blanks
anywhere between the tokens, if the spelling opens no more levels than a reader may; this takes that
the digits of its doubles read back. The JSON that is written for it spells it. -/
theorem readText_of_spelling {e : Expression} (hfinite : e.ForallFloats fun x => x.isFinite)
    (hdigits : e.ForallFloats Binary64.DigitsReadBack) :
    (∀ tokens text, e.spelling nestingLimit tokens → Padded tokens text.toList →
      readText read text = .ok e) ∧ e.spelling.Includes e.toJson := by
  refine ⟨fun tokens text htokens htext => ?_, e.includes_toJson⟩
  obtain ⟨doc, hdoc, hread⟩ := accepts hfinite hdigits (nestingLimit + 1) nestingLimit
    (Nat.lt_succ_self _) tokens htokens
  rw [readText_of_shows read hdoc htext]
  exact hread

/-- Fields in another order and in an array, an empty list left out, a case as an object, and a
number and half of a surrogate pair under an unknown name. -/
theorem readText_of_spelling_unusual :
    let x : Binary64 := ⟨0x3FF8000000000000⟩
    let e : Expression := .binary .equal (.call "now" []) (.constant (.float x))
    let note := ['['] :: (commaTokens [["1E5".toList], [quoted "\\ud800".toList]] ++ [[']']])
    let call := ['{'] :: stringChars "function_call" :: [':'] ::
      (['['] :: (commaTokens [[stringChars "now"]] ++ [[']']]) ++ [['}']])
    let kind := [['{'], stringChars "equal", [':'], "null".toList, ['}']]
    let members := ['{'] :: (commaTokens
      [stringChars "right" :: [':'] :: (toJson (.constant (.float x))).tokens,
        stringChars "note" :: [':'] :: note, stringChars "left" :: [':'] :: call,
        stringChars "kind" :: [':'] :: kind] ++ [['}']])
    let tokens := ['{'] :: stringChars "binary_operator" :: [':'] :: (members ++ [['}']])
    readText read (String.ofList (' ' :: tokens.flatten)) = .ok e := by
  intro x e note call kind members tokens
  have hfloats {Q : Binary64 → Prop} (hQ : Q x) : e.ForallFloats Q := by
    have hcall : (Expression.call "now" []).ForallFloats Q :=
      (forallFloats_iff_children (by rintro _ ⟨⟩)).mpr (by simp [children])
    have hconstant : (constant (.float x)).ForallFloats Q :=
      forallFloats_constant.mpr (by rintro _ ⟨⟩; exact hQ)
    have hchildren : ∀ c ∈ e.children, c.ForallFloats Q :=
      List.forall_mem_cons.mpr ⟨hcall, List.forall_mem_singleton.mpr hconstant⟩
    exact (forallFloats_iff_children fun _ => Expression.noConfusion).mpr hchildren
  have hnote : IsValue note := by
    refine .array (List.forall_mem_cons.mpr ⟨?_, List.forall_mem_singleton.mpr ?_⟩)
    · exact @IsValue.number ⟨false, [1], [], some (false, [5])⟩ _
        ⟨List.cons_ne_nil _ _, by rintro _ _ _ ⟨⟩, by rintro _ _ ⟨⟩; exact List.cons_ne_nil _ _⟩
        (by decide)
    · exact .string (.code 'd' '8' '0' '0' 0xD800 (by decide) .nil)
  have hcall : (Expression.call "now" []).spelling 125 call :=
    .object (writes_stringChars _) (.array (.cons ⟨_, writes_stringChars "now", rfl⟩
      (.nil (List.forall_mem_singleton.mpr rfl))))
  have hkind : Spelling.bare "equal" 125 kind := .object (writes_stringChars _)
  have hright : (constant (.float x)).spelling 125 (toJson (.constant (.float x))).tokens :=
    includes_toJson _ 125 (by decide)
  have hspelling : e.spelling nestingLimit tokens :=
    .object (writes_stringChars _) (.object
      (@Spelling.Members.field _ 125 [_, _] [] _ _ _ _ (writes_stringChars "right") hright
        (.unknown (by simp) (writes_stringChars "note") hnote
          (@Spelling.Members.field _ _ [_] [] _ _ _ _ (writes_stringChars "left") hcall
            (@Spelling.Members.field _ _ [] [] _ _ _ _ (writes_stringChars "kind") hkind
              (.nil (List.forall_mem_nil _)))))))
  refine (readText_of_spelling (hfloats (by decide))
    (hfloats Binary64.digitsReadBack_three_halves)).1 tokens _ hspelling ?_
  rw [String.toList_ofList]
  exact .blank ' ' rfl (padded_flatten tokens)

end Expression

end FilterClause
