import FilterClause.Clause
import FilterClause.Proofs.Skeleton.Columns

/-!
# What a resolver is asked

A resolver may change its state whenever it is asked, so an inquiry too many, or two in another
order, would change the columns. Here the resolver keeps a record of what it is asked. Emission asks
for the accesses of the expression one by one, in the order of emission, up to the first offence,
and writes each answer where the access stands. It asks for nothing else, so the record of several
builds is one conversation, and only the answers matter.
-/

namespace FilterClause

/-- A property that a resolver was asked for, and its answer. -/
structure Inquiry where
  property : Property
  answer : Option String
  deriving DecidableEq, Repr

namespace Resolver

variable {σ : Type}

/-- The resolver, keeping a record of what it is asked. -/
def recording (resolve : Resolver σ) : Resolver (σ × List Inquiry) := fun p state =>
  ((resolve p state.1).1, (resolve p state.1).2, state.2 ++ [⟨p, (resolve p state.1).1⟩])

/-- Ask for properties one after the other, whatever the answers. -/
def ask (resolve : Resolver σ) : List Property → σ → List (Option String) × σ
  | [], state => ([], state)
  | p :: ps, state =>
    let rest := resolve.ask ps (resolve p state).2
    ((resolve p state).1 :: rest.1, rest.2)

theorem ask_append (resolve : Resolver σ) (ps qs : List Property) (state : σ) :
    resolve.ask (ps ++ qs) state =
      ((resolve.ask ps state).1 ++ (resolve.ask qs (resolve.ask ps state).2).1,
        (resolve.ask qs (resolve.ask ps state).2).2) := by
  induction ps generalizing state with
  | nil => rfl
  | cons p ps ih => simp only [List.cons_append, ask, ih]

@[simp] theorem length_ask (resolve : Resolver σ) (ps : List Property) (state : σ) :
    (resolve.ask ps state).1.length = ps.length := by
  induction ps generalizing state with
  | nil => rfl
  | cons p ps ih => simp [ask, ih]

/-- Resolvers that answer alike do so from the beginning. -/
theorem ask_eq_of_isPrefix {σ' : Type} {resolve : Resolver σ} {resolve' : Resolver σ'}
    {ps qs : List Property} (hinitial : ps <+: qs) {state : σ} {state' : σ'}
    (h : (resolve.ask qs state).1 = (resolve'.ask qs state').1) :
    (resolve.ask ps state).1 = (resolve'.ask ps state').1 := by
  obtain ⟨rest, rfl⟩ := hinitial
  rw [ask_append, ask_append] at h
  exact List.append_inj_left h (by simp)

end Resolver

namespace Event

/-- The property of an access. -/
def access? : Event → Option Property
  | access p => some p
  | constant _ | offence _ => none

/-- There is no offence, and the accesses are asked for one by one, each with a column. -/
structure Answered (xs : List Event) (inquiries : List Inquiry) : Prop where
  asked : inquiries.map Inquiry.property = xs.filterMap access?
  found : ∀ i ∈ inquiries, i.answer.isSome
  clear : ∀ error, offence error ∉ xs

/-- What is asked on a walk that ends with a result: all accesses, or those up to the first offence,
with the access that has no column if that is the offence. -/
inductive Asks (xs : List Event) : Except EmissionError String → List Inquiry → Prop where
  | all {text : String} {inquiries : List Inquiry} (h : Answered xs inquiries) :
    Asks xs (.ok text) inquiries
  | offence {before after : List Event} {error : EmissionError} {inquiries : List Inquiry}
    (hxs : xs = before ++ offence error :: after) (h : Answered before inquiries) :
    Asks xs (.error error) inquiries
  | column {before after : List Event} {p : Property} {inquiries : List Inquiry}
    (hxs : xs = before ++ access p :: after) (h : Answered before inquiries) :
    Asks xs (.error (.column p)) (inquiries ++ [⟨p, none⟩])

namespace Answered

theorem nil : Answered [] [] := ⟨rfl, nofun, nofun⟩

theorem constant (v : Value) : Answered [.constant v] [] := ⟨rfl, nofun, by simp⟩

theorem access (p : Property) (c : String) : Answered [.access p] [⟨p, some c⟩] :=
  ⟨rfl, by simp, by simp⟩

theorem append {xs ys : List Event} {is js : List Inquiry} (hx : Answered xs is)
    (hy : Answered ys js) : Answered (xs ++ ys) (is ++ js) := by
  constructor
  · rw [List.map_append, List.filterMap_append, hx.asked, hy.asked]
  · exact List.forall_mem_append.mpr ⟨hx.found, hy.found⟩
  · intro error h
    rcases List.mem_append.mp h with h | h
    · exact hx.clear error h
    · exact hy.clear error h

end Answered

theorem untilOffence_cons {x : Event} (h : ∀ error, x ≠ offence error) (xs : List Event) :
    untilOffence (x :: xs) = x :: untilOffence xs := by
  cases x with
  | offence e => exact absurd rfl (h e)
  | constant v | access p => rfl

theorem untilOffence_append_of_clear {xs : List Event} (h : ∀ error, offence error ∉ xs)
    (ys : List Event) : untilOffence (xs ++ ys) = xs ++ untilOffence ys := by
  induction xs with
  | nil => rfl
  | cons x xs ih =>
    have hx (error : EmissionError) : x ≠ offence error := fun he =>
      h error (he ▸ List.mem_cons_self)
    rw [List.cons_append, untilOffence_cons hx, ih fun error he => h error (.tail x he),
      List.cons_append]

theorem exists_eq_append_of_untilOffence {xs ys zs : List Event} (h : ∀ error, offence error ∉ xs)
    (hy : untilOffence ys = xs ++ zs) : ∃ rest, ys = xs ++ rest ∧ untilOffence rest = zs := by
  induction xs generalizing ys with
  | nil => exact ⟨ys, rfl, hy⟩
  | cons x xs ih =>
    cases ys with
    | nil => cases hy
    | cons y ys =>
      by_cases hoffence : ∃ error, y = offence error
      · obtain ⟨error, rfl⟩ := hoffence
        have hx : offence error = x := (List.cons.inj hy).1
        exact absurd (hx ▸ List.mem_cons_self) (h error)
      · rw [untilOffence_cons (not_exists.mp hoffence), List.cons_append] at hy
        obtain ⟨hx, hrest⟩ := List.cons.inj hy
        obtain ⟨rest, hys, hzs⟩ := ih (fun error he => h error (.tail x he)) hrest
        exact ⟨rest, by rw [hx, hys, List.cons_append], hzs⟩

theorem head?_untilOffence (xs : List Event) : (untilOffence xs).head? = xs.head? := by
  cases xs with
  | nil => rfl
  | cons x xs => cases x <;> rfl

/-- Lists that agree have the same event after events without an offence. -/
theorem Agree.exists_eq_append {before after ys : List Event} {x : Event}
    (h : Agree (before ++ x :: after) ys) (hbefore : ∀ error, offence error ∉ before) :
    ∃ after', ys = before ++ x :: after' := by
  rw [Agree, untilOffence_append_of_clear hbefore] at h
  obtain ⟨rest, rfl, hrest⟩ := exists_eq_append_of_untilOffence hbefore h.symm
  have hhead : rest.head? = some x := by
    rw [← head?_untilOffence, hrest, head?_untilOffence, List.head?_cons]
  obtain ⟨after', rfl⟩ := List.head?_eq_some_iff.mp hhead
  exact ⟨after', rfl⟩

theorem Agree.eq_of_clear {xs ys : List Event} (h : Agree xs ys)
    (hxs : ∀ error, offence error ∉ xs) : ys = xs := by
  have hy := untilOffence_append_of_clear hxs []
  rw [List.append_nil, h] at hy
  obtain ⟨rest, rfl, hrest⟩ := exists_eq_append_of_untilOffence hxs hy
  have hhead : rest.head? = none := by
    rw [← head?_untilOffence, hrest, head?_untilOffence, List.head?_nil]
  rw [List.head?_eq_none_iff.mp hhead, List.append_nil]

namespace Asks

theorem agree {xs ys : List Event} {result : Except EmissionError String}
    {inquiries : List Inquiry} (h : Asks xs result inquiries) (hagree : Agree xs ys) :
    Asks ys result inquiries := by
  cases h with
  | all h => exact .all (hagree.eq_of_clear h.clear ▸ h)
  | offence hxs h =>
    subst hxs
    obtain ⟨after', hys⟩ := hagree.exists_eq_append h.clear
    exact .offence hys h
  | column hxs h =>
    subst hxs
    obtain ⟨after', hys⟩ := hagree.exists_eq_append h.clear
    exact .column hys h

theorem cons {x : Event} {xs : List Event} {result : Except EmissionError String}
    {is js : List Inquiry} (hx : Answered [x] is) (h : Asks xs result js) :
    Asks (x :: xs) result (is ++ js) := by
  cases h with
  | all h => exact .all (hx.append h)
  | offence hxs h => exact .offence (by rw [hxs]; rfl) (hx.append h)
  | column hxs h =>
    rw [← List.append_assoc]
    exact .column (by rw [hxs]; rfl) (hx.append h)

theorem map {xs : List Event} {result : Except EmissionError String} {inquiries : List Inquiry}
    (h : Asks xs result inquiries) (f : String → String) : Asks xs (result.map f) inquiries := by
  cases h with
  | all h => exact .all h
  | offence hxs h => exact .offence hxs h
  | column hxs h => exact .column hxs h

/-- The accesses are asked for from the first one on. -/
theorem prefix_asked {xs : List Event} {result : Except EmissionError String}
    {inquiries : List Inquiry} (h : Asks xs result inquiries) :
    inquiries.map Inquiry.property <+: xs.filterMap access? := by
  cases h with
  | all h => exact h.asked ▸ List.prefix_rfl
  | offence hxs h =>
    rw [hxs, List.filterMap_append, h.asked]
    exact List.prefix_append _ _
  | @column before after p _ hxs h =>
    refine ⟨after.filterMap access?, ?_⟩
    rw [hxs, List.filterMap_append, List.map_append, h.asked, List.append_assoc]
    rfl

theorem asked_of_ok {xs : List Event} {text : String} {inquiries : List Inquiry}
    (h : Asks xs (.ok text) inquiries) : inquiries.map Inquiry.property = xs.filterMap access? := by
  cases h with
  | all h => exact h.asked

end Asks

end Event

namespace Fragment

variable {σ : Type}

/-- What is asked while fragments are carried out. -/
def inquiries (resolve : Resolver σ) : List Fragment → σ → List Inquiry
  | [], _ => []
  | text _ :: rest, state | bound _ :: rest, state => inquiries resolve rest state
  | column p :: rest, state =>
    match resolve p state with
    | (some c, state) => ⟨p, some c⟩ :: inquiries resolve rest state
    | (none, _) => [⟨p, none⟩]
  | refusal _ :: _, _ => []

/-- The record holds what was asked, and makes no difference otherwise. -/
theorem carryOut_recording (resolve : Resolver σ) (fs : List Fragment) (state : σ)
    (log : List Inquiry) (parameters : Parameters) :
    carryOut resolve.recording fs (state, log) parameters =
      ⟨(carryOut resolve fs state parameters).result,
        (carryOut resolve fs state parameters).parameters,
        (carryOut resolve fs state parameters).state, log ++ inquiries resolve fs state⟩ := by
  induction fs generalizing state log parameters with
  | nil => simp [carryOut, inquiries]
  | cons f fs ih =>
    cases f with
    | text t | bound v => rw [carryOut, carryOut, ih, inquiries]; rfl
    | column p =>
      rcases hp : resolve p state with ⟨_ | c, state'⟩
      · simp [carryOut, inquiries, Resolver.recording, hp]
      · simp [carryOut, inquiries, Resolver.recording, hp, ih, Outcome.precede]
    | refusal e => simp [carryOut, inquiries]

/-- The answers are those of the resolver that is asked just this, and in its last state. -/
theorem ask_inquiries (resolve : Resolver σ) (fs : List Fragment) (state : σ)
    (parameters : Parameters) :
    resolve.ask ((inquiries resolve fs state).map Inquiry.property) state =
      ((inquiries resolve fs state).map Inquiry.answer,
        (carryOut resolve fs state parameters).state) := by
  induction fs generalizing state parameters with
  | nil => rfl
  | cons f fs ih =>
    cases f with
    | text t => exact ih state parameters
    | bound v => exact ih state (parameters.append v)
    | column p =>
      rcases hp : resolve p state with ⟨_ | c, state'⟩
      · simp [carryOut, inquiries, Resolver.ask, hp]
      · simp [carryOut, inquiries, Resolver.ask, hp, ih state' parameters, Outcome.precede]
    | refusal e => rfl

theorem asks_inquiries (resolve : Resolver σ) (fs : List Fragment) (state : σ)
    (parameters : Parameters) :
    Event.Asks (fs.filterMap event?) (carryOut resolve fs state parameters).result
      (inquiries resolve fs state) := by
  induction fs generalizing state parameters with
  | nil => exact .all .nil
  | cons f fs ih =>
    cases f with
    | text t => exact (ih state parameters).map _
    | bound v => exact .cons (.constant v) ((ih state (parameters.append v)).map _)
    | column p =>
      rw [carryOut, inquiries]
      rcases resolve p state with ⟨_ | c, state'⟩
      · exact @Event.Asks.column _ [] _ p _ rfl .nil
      · exact .cons (.access p c) ((ih state' parameters).map _)
    | refusal e => exact @Event.Asks.offence _ [] _ e _ rfl .nil

/-- Where nothing fails the answers are written where the accesses stand. -/
theorem fills_inquiries {resolve : Resolver σ} {fs : List Fragment} {state : σ}
    {parameters : Parameters} {sql : String}
    (h : (carryOut resolve fs state parameters).result = .ok sql) :
    ∃ cs zs, Fills fs cs zs ∧ (inquiries resolve fs state).map Inquiry.answer = cs.map some ∧
      sql = written (fun _ => none) parameters.style.render parameters.size zs := by
  induction fs generalizing state parameters sql with
  | nil =>
    cases h
    exact ⟨[], [], .nil, rfl, rfl⟩
  | cons f fs ih =>
    cases f with
    | text t =>
      obtain ⟨rest, hr, rfl⟩ := Outcome.result_precede_eq_ok_iff.mp h
      obtain ⟨cs, zs, hfills, hcs, rfl⟩ := ih hr
      exact ⟨cs, _, .text t hfills, hcs, rfl⟩
    | bound v =>
      obtain ⟨rest, hr, rfl⟩ := Outcome.result_precede_eq_ok_iff.mp h
      obtain ⟨cs, zs, hfills, hcs, rfl⟩ := ih hr
      refine ⟨cs, _, .bound v hfills, hcs, ?_⟩
      rw [written, Parameters.style_append, Parameters.size_append]
      rfl
    | column p =>
      rw [carryOut] at h
      rw [inquiries]
      rcases hp : resolve p state with ⟨_ | c, state'⟩
      · rw [hp] at h
        cases h
      · rw [hp] at h
        obtain ⟨rest, hr, rfl⟩ := Outcome.result_precede_eq_ok_iff.mp h
        obtain ⟨cs, zs, hfills, hcs, rfl⟩ := ih hr
        exact ⟨c :: cs, _, .column p c hfills, congrArg _ hcs, rfl⟩
    | refusal e => cases h

/-- Nothing but the answers matters. -/
theorem carryOut_of_ask_eq {σ' : Type} {resolve : Resolver σ} {resolve' : Resolver σ'}
    {fs : List Fragment} {state : σ} {state' : σ'} (parameters : Parameters)
    (h : (resolve'.ask ((inquiries resolve fs state).map Inquiry.property) state').1 =
      (inquiries resolve fs state).map Inquiry.answer) :
    (carryOut resolve' fs state' parameters).result =
        (carryOut resolve fs state parameters).result ∧
      (carryOut resolve' fs state' parameters).parameters =
        (carryOut resolve fs state parameters).parameters := by
  induction fs generalizing state state' parameters with
  | nil => exact ⟨rfl, rfl⟩
  | cons f fs ih =>
    cases f with
    | text t =>
      obtain ⟨hr, hp⟩ := ih parameters h
      exact ⟨congrArg (Except.map (t ++ ·)) hr, hp⟩
    | bound v =>
      obtain ⟨hr, hp⟩ := ih (parameters.append v) h
      exact ⟨congrArg (Except.map (parameters.nextPlaceholder ++ ·)) hr, hp⟩
    | column p =>
      rw [inquiries] at h
      rw [carryOut, carryOut]
      rcases hp : resolve p state with ⟨_ | c, next⟩
      · rw [hp] at h
        obtain ⟨hanswer, _⟩ := List.cons.inj h
        rcases hp' : resolve' p state' with ⟨answer, next'⟩
        rw [hp'] at hanswer
        cases hanswer
        exact ⟨rfl, rfl⟩
      · rw [hp] at h
        obtain ⟨hanswer, hrest⟩ := List.cons.inj h
        rcases hp' : resolve' p state' with ⟨answer, next'⟩
        rw [hp'] at hanswer hrest
        cases hanswer
        obtain ⟨hr, hp⟩ := ih parameters hrest
        exact ⟨congrArg (Except.map (c ++ ·)) hr, hp⟩
    | refusal e => exact ⟨rfl, rfl⟩

end Fragment

namespace Expression

open Fragment

variable {σ : Type}

mutual

/-- The properties that an expression accesses, in the order of emission. -/
def accesses : Expression → List Property
  | convert source _ => source.accesses
  | binary _ left right => left.accesses ++ right.accesses
  | unary _ operand => operand.accesses
  | property p => [p]
  | call name arguments => (Call.inEmissionOrder name (argumentAccesses arguments)).flatten
  | constant _ | collection _ | lambda _ _ _ _ | rangeVariable _ => []

def argumentAccesses : List Expression → List (List Property)
  | [] => []
  | e :: es => e.accesses :: argumentAccesses es

end

theorem argumentAccesses_eq_map (es : List Expression) :
    argumentAccesses es = es.map accesses := by
  induction es with
  | nil => rfl
  | cons e es ih => rw [argumentAccesses, ih, List.map_cons]

/-- The accesses among the events are those of the expression. -/
theorem filterMap_access?_events (level : ℕ) (e : Expression) :
    (e.events level).filterMap Event.access? = e.accesses := by
  induction e generalizing level with
  | convert source target ih | unary operator operand ih =>
    rw [filterMap_events_node fun _ => rfl]
    exact ih (level + 1)
  | binary operator left right ihl ihr =>
    rw [filterMap_events_node fun _ => rfl, accesses, ← ihl (level + 1), ← ihr (level + 1)]
  | call name arguments ih =>
    rw [filterMap_events_node fun _ => rfl, accesses, argumentAccesses_eq_map]
    simp only [List.map_congr_left fun a ha => ih a ha (level + 1)]
  | constant v =>
    rw [filterMap_events_node fun _ => rfl]
    exact ite_self []
  | property p | collection items | lambda q s x p | rangeVariable x =>
    exact filterMap_events_node (fun _ => rfl) level _

/-- What is asked while an expression is emitted. -/
def inquiries (e : Expression) (resolve : Resolver σ) (state : σ) : List Inquiry :=
  Fragment.inquiries resolve (e.fragments 0) state

/-- These inquiries, and no others, are made while an expression is emitted. -/
structure Inquires (e : Expression) (resolve : Resolver σ) (state : σ) (parameters : Parameters)
    (inquiries : List Inquiry) : Prop where
  /-- The record holds them, and makes no difference otherwise. -/
  recorded : e.emit resolve.recording (state, []) parameters =
    ⟨(e.emit resolve state parameters).result, (e.emit resolve state parameters).parameters,
      (e.emit resolve state parameters).state, inquiries⟩
  /-- They are answered one by one by the resolver, which is left in its last state. -/
  answered : resolve.ask (inquiries.map Inquiry.property) state =
    (inquiries.map Inquiry.answer, (e.emit resolve state parameters).state)
  /-- They are the accesses of the expression, up to the first offence. -/
  asks : Event.Asks (e.events 1) (e.emit resolve state parameters).result inquiries
  /-- The answers stand where the accesses do. -/
  columns : ∀ sql, (e.emit resolve state parameters).result = .ok sql →
    ∃ k : Skeleton, e.skeleton? (fun _ => some "") = some k.outline ∧
      inquiries.map Inquiry.answer = k.columns.map some ∧
      sql = k.text parameters.style.render parameters.size

theorem inquires (e : Expression) (resolve : Resolver σ) (state : σ) (parameters : Parameters) :
    e.Inquires resolve state parameters (e.inquiries resolve state) where
  recorded := carryOut_recording resolve (e.fragments 0) state [] parameters
  answered := ask_inquiries resolve (e.fragments 0) state parameters
  asks := (asks_inquiries resolve (e.fragments 0) state parameters).agree (agree_fragments 0 e)
  columns sql h := by
    obtain ⟨cs, zs, hfills, hcs, rfl⟩ := fills_inquiries h
    obtain ⟨k, houtline, rfl, hspells⟩ := shows_of_fills hfills
    exact ⟨k, houtline, hcs, hspells.written_eq _ _⟩

/-- Nothing but the text with the answers to all accesses in their places is emitted. -/
theorem exists_text_of_emit {e : Expression} {resolve : Resolver σ} {state : σ}
    {parameters : Parameters} {sql : String}
    (h : (e.emit resolve state parameters).result = .ok sql) :
    ∃ k : Skeleton, e.skeleton? (fun _ => some "") = some k.outline ∧
      k.columns.map some = (resolve.ask e.accesses state).1 ∧
      sql = k.text parameters.style.render parameters.size := by
  obtain ⟨-, hanswered, hasks, hcolumns⟩ := e.inquires resolve state parameters
  obtain ⟨k, houtline, hanswers, htext⟩ := hcolumns sql h
  rw [h] at hasks
  have hasked := hasks.asked_of_ok
  rw [filterMap_access?_events] at hasked
  refine ⟨k, houtline, ?_, htext⟩
  rw [← hasked, hanswered, hanswers]

/-- Resolvers that answer the accesses alike give the same result and bind the same values, as no
more is asked than the beginning of the accesses. -/
theorem emit_eq_of_ask_eq {σ' : Type} {e : Expression} {resolve : Resolver σ}
    {resolve' : Resolver σ'} {state : σ} {state' : σ'}
    (h : (resolve'.ask e.accesses state').1 = (resolve.ask e.accesses state).1)
    (parameters : Parameters) :
    (e.emit resolve' state' parameters).result = (e.emit resolve state parameters).result ∧
      (e.emit resolve' state' parameters).parameters =
        (e.emit resolve state parameters).parameters := by
  obtain ⟨_, hanswered, hasks, _⟩ := e.inquires resolve state parameters
  refine carryOut_of_ask_eq parameters ?_
  have hinitial := hasks.prefix_asked
  rw [filterMap_access?_events] at hinitial
  exact (Resolver.ask_eq_of_isPrefix hinitial h).trans (congrArg Prod.fst hanswered)

end Expression

namespace Clause

variable {σ : Type}

/-- The clause with a record of what its resolver is asked. -/
def recording (c : Clause σ) : Clause (σ × List Inquiry) :=
  ⟨c.keyword, c.options, c.resolve.recording⟩

/-- What is asked for a build with a result: the accesses of the filter, up to the first offence. -/
def Asks (c : Clause σ) (result : Except EmissionError String) (inquiries : List Inquiry) : Prop :=
  match c.options.filter with
  | none => inquiries = []
  | some e => Event.Asks (e.events 1) result inquiries

/-- What is asked while a clause is built. -/
def inquiries (c : Clause σ) (state : σ) : List Inquiry :=
  match c.options.filter with
  | none => []
  | some e => e.inquiries c.resolve state

theorem build_recording (c : Clause σ) (state : σ) (log : List Inquiry) (parameters : Parameters) :
    c.recording.build (state, log) parameters =
      ⟨(c.build state parameters).result, (c.build state parameters).parameters,
        (c.build state parameters).state, log ++ c.inquiries state⟩ := by
  rcases c with ⟨keyword, ⟨_ | e⟩, resolve⟩
  · simp [recording, build, inquiries]
  · exact congrArg (Outcome.precede (Text.upperCase keyword ++ " "))
      (Fragment.carryOut_recording resolve (e.fragments 0) state log parameters)

theorem ask_inquiries (c : Clause σ) (state : σ) (parameters : Parameters) :
    c.resolve.ask ((c.inquiries state).map Inquiry.property) state =
      ((c.inquiries state).map Inquiry.answer, (c.build state parameters).state) := by
  rcases c with ⟨keyword, ⟨_ | e⟩, resolve⟩
  · rfl
  · exact (e.inquires resolve state parameters).answered

theorem asks_inquiries (c : Clause σ) (state : σ) (parameters : Parameters) :
    c.Asks (c.build state parameters).result (c.inquiries state) := by
  rcases c with ⟨keyword, ⟨_ | e⟩, resolve⟩
  · rfl
  · exact (e.inquires resolve state parameters).asks.map _

/-- These inquiries, and no others, are made while a clause is built several times. -/
structure Inquires (c : Clause σ) (n : ℕ) (state : σ) (parameters : Parameters)
    (parts : List (List Inquiry)) : Prop where
  /-- The record holds them all, and makes no difference otherwise. -/
  recorded : ∀ log, c.recording.buildTimes n (state, log) parameters =
    ((c.buildTimes n state parameters).1, (c.buildTimes n state parameters).2.1,
      (c.buildTimes n state parameters).2.2, log ++ parts.flatten)
  /-- The resolver goes on in each build from the state that the one before left it in. -/
  answered : c.resolve.ask (parts.flatten.map Inquiry.property) state =
    (parts.flatten.map Inquiry.answer, (c.buildTimes n state parameters).2.2)
  asks : List.Forall₂ c.Asks (c.buildTimes n state parameters).1 parts

theorem exists_inquires (c : Clause σ) (n : ℕ) (state : σ) (parameters : Parameters) :
    ∃ parts, c.Inquires n state parameters parts := by
  induction n generalizing state parameters with
  | zero => exact ⟨[], fun log => by simp [buildTimes], rfl, .nil⟩
  | succ n ih =>
    obtain ⟨parts, hrecorded, hanswered, hasks⟩ :=
      ih (c.build state parameters).state (c.build state parameters).parameters
    refine ⟨c.inquiries state :: parts, fun log => ?_, ?_, ?_⟩
    · rw [buildTimes, build_recording, hrecorded, List.append_assoc]
      rfl
    · rw [List.flatten_cons, List.map_append, List.map_append, Resolver.ask_append,
        c.ask_inquiries state parameters, hanswered]
      rfl
    · exact .cons (c.asks_inquiries state parameters) hasks

end Clause

namespace Expression

variable {σ : Type}

/-- Emission asks for the accesses of an expression in their order, up to the first offence, and
writes the answers where the accesses stand. In several builds the resolver goes on from build to
build. Nothing but its answers matters. -/
theorem emit_inquires (e : Expression) (resolve : Resolver σ) (state : σ)
    (parameters : Parameters) :
    (∀ level, (e.events level).filterMap Event.access? = e.accesses) ∧
      (∃ inquiries, e.Inquires resolve state parameters inquiries) ∧
      (∀ (c : Clause σ) (n : ℕ), ∃ parts, c.Inquires n state parameters parts) ∧
      ∀ (σ' : Type) (resolve' : Resolver σ') (state' : σ'),
        (resolve'.ask e.accesses state').1 = (resolve.ask e.accesses state).1 →
        (e.emit resolve' state' parameters).result = (e.emit resolve state parameters).result ∧
          (e.emit resolve' state' parameters).parameters =
            (e.emit resolve state parameters).parameters := by
  refine ⟨fun level => filterMap_access?_events level e, ⟨_, e.inquires resolve state parameters⟩,
    fun c n => c.exists_inquires n state parameters, ?_⟩
  intro σ' resolve' state' h
  exact emit_eq_of_ask_eq h parameters

theorem emit_inquires_indexof :
    let a : Property := ⟨none, "A"⟩
    let b : Property := ⟨none, "B"⟩
    let e : Expression := .binary .equal (.call "indexof" [.property a, .property b]) (.property a)
    let resolve : Resolver ℕ := fun _ n => (if n < 4 then some ("c" ++ toString n) else none, n + 1)
    let c : Clause ℕ := ⟨"where", ⟨some e⟩, resolve⟩
    e.accesses = [b, a, a] ∧
      (e.emit resolve 0 (.empty .atP)).result = .ok "(CHARINDEX(c0, c1) = c2)" ∧
      e.Inquires resolve 0 (.empty .atP) [⟨b, some "c0"⟩, ⟨a, some "c1"⟩, ⟨a, some "c2"⟩] ∧
      (c.recording.buildTimes 2 (0, []) (.empty .atP)).2.2 =
        (5, [⟨b, some "c0"⟩, ⟨a, some "c1"⟩, ⟨a, some "c2"⟩, ⟨b, some "c3"⟩, ⟨a, none⟩]) ∧
      (e.emit (.ofFunction fun p => some p.name) () (.empty .atP)).result =
        (e.emit (fun p n => (some p.name, n + 1)) 0 (.empty .atP)).result := by
  intro a b e resolve c
  obtain ⟨_, ⟨inquiries, hinquires⟩, _, _⟩ := emit_inquires e resolve 0 (.empty .atP)
  have hrecord : inquiries = [⟨b, some "c0"⟩, ⟨a, some "c1"⟩, ⟨a, some "c2"⟩] :=
    (congrArg (fun o => o.state.2) hinquires.recorded).symm.trans (by decide)
  obtain ⟨_, _, _, halike⟩ :=
    emit_inquires e (fun p (n : ℕ) => (some p.name, n + 1)) 0 (.empty .atP)
  exact ⟨by decide, by decide, hrecord ▸ hinquires, by decide,
    (halike Unit (.ofFunction fun p => some p.name) () (by decide)).1⟩

end Expression

end FilterClause
