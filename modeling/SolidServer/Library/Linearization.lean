import SolidServer.Library.Interleaving
import Mathlib.Data.List.Nodup

/-!
# Linearization

The history of a configuration reached from `Config.init s` is a sequential run of the
commands it contains: executed one after another from `s` they give the answers in the
history and the shared state (`Replays`), and those of one operation are answered along the
operation's program (`Follows`).  A sequential order of the operations themselves is a
list of tickets and operations; `Linearizes history order` says that it contains every
operation that returned, only operations that were called, and respects the order of calls
and returns in the history.
-/

namespace Atomic

variable {Client C : Type} {R : C → Type} {σ Op Val Env : Type}

/-! ### Commands in sequence -/

/-- Executing the commands of the list in order from `s` gives their answers and leads to
`t`. -/
def Replays (exec : (c : C) → σ → Option (R c × σ)) : List (Σ c, R c) → σ → σ → Prop
  | [], s, t => s = t
  | ⟨c, r⟩ :: l, s, t => ∃ s', exec c s = some (r, s') ∧ Replays exec l s' t

theorem Replays.append {exec : (c : C) → σ → Option (R c × σ)} {l l' : List (Σ c, R c)}
    {s t u : σ} (h : Replays exec l s t) (h' : Replays exec l' t u) :
  Replays exec (l ++ l') s u
  := by
  induction l generalizing s with
  | nil =>
      obtain rfl := h
      apply h'
  | cons o l ih =>
      obtain ⟨s', hs', h⟩ := h
      use s', hs', ih h

/-- From the program `p` the commands of the list are issued, answered as in the list, and
`p'` is left. -/
inductive Follows : Prog C R Val → List (Σ c, R c) → Prog C R Val → Prop where
  | refl {p} : Follows p [] p
  | act {c next r l p'} (h : Follows (next r) l p') : Follows (.act c next) (⟨c, r⟩ :: l) p'

theorem Follows.concat {p : Prog C R Val} {l : List (Σ c, R c)} {c : C}
    {next : R c → Prog C R Val} (h : Follows p l (.act c next)) (r : R c) :
  Follows p (l ++ [⟨c, r⟩]) (next r)
  := by
  generalize hq : Prog.act c next = q at h
  induction h with
  | refl =>
      subst hq
      apply Follows.act .refl
  | act _ ih => apply Follows.act (ih hq)

/-- A program that returns at once issues no command. -/
theorem Follows.ret_eq {a : Val} {l : List (Σ c, R c)} {p : Prog C R Val}
    (h : Follows (.ret a) l p) :
  l = [] ∧ p = .ret a
  := by
  cases h
  exact ⟨rfl, rfl⟩

/-- A program that begins with a command and has returned has issued that command. -/
theorem Follows.act_ret {c : C} {next : R c → Prog C R Val} {l : List (Σ c, R c)} {v : Val}
    (h : Follows (.act c next) l (.ret v)) :
  ∃ r l', l = ⟨c, r⟩ :: l' ∧ Follows (next r) l' (.ret v)
  := by
  cases h with
  | act h => exact ⟨_, _, rfl, h⟩

/-- The command of an event, with its answer. -/
def Event.answer : Event Client C R Op Val → Option (Σ c, R c)
  | .act _ _ c r => some ⟨c, r⟩
  | _ => none

/-- The command of an event of the operation with ticket `n`, with its answer. -/
def Event.answerOf (n : ℕ) (e : Event Client C R Op Val) : Option (Σ c, R c) :=
  if e.ticket = n then e.answer else none

/-- The commands of a history, each with its answer. -/
def answers (history : List (Event Client C R Op Val)) : List (Σ c, R c) :=
  history.filterMap Event.answer

/-- The commands of the operation with ticket `n`, each with its answer. -/
def answersOf (n : ℕ) (history : List (Event Client C R Op Val)) : List (Σ c, R c) :=
  history.filterMap (Event.answerOf n)

theorem answers_concat (history : List (Event Client C R Op Val))
    (e : Event Client C R Op Val) :
  answers (history ++ [e]) = answers history ++ e.answer.toList
  := by
  rw [answers, List.filterMap_append, List.filterMap_cons]
  cases e.answer <;> rfl

theorem answersOf_concat (n : ℕ) (history : List (Event Client C R Op Val))
    (e : Event Client C R Op Val) :
  answersOf n (history ++ [e]) = answersOf n history ++ (e.answerOf n).toList
  := by
  rw [answersOf, List.filterMap_append, List.filterMap_cons]
  cases e.answerOf n <;> rfl

/-- An event of another operation adds no commands. -/
theorem answersOf_concat_of_ne {n : ℕ} {history : List (Event Client C R Op Val)}
    {e : Event Client C R Op Val} (h : e.ticket ≠ n) :
  answersOf n (history ++ [e]) = answersOf n history
  := by
  rw [answersOf_concat, Event.answerOf, if_neg h, Option.toList_none, List.append_nil]

theorem mem_answersOf_iff {n : ℕ} {history : List (Event Client C R Op Val)} {c : C} {r : R c} :
  ⟨c, r⟩ ∈ answersOf n history ↔ ∃ op, .act n op c r ∈ history
  := by
  constructor
  · intro h
    obtain ⟨e, he, heo⟩ := List.mem_filterMap.mp h
    obtain ⟨hticket, hanswer⟩ := Option.ite_none_right_eq_some.mp heo
    cases e with
    | act m op c' r' =>
        obtain ⟨rfl, hr⟩ := Sigma.mk.inj (Option.some.inj hanswer)
        obtain rfl := eq_of_heq hr
        obtain rfl := hticket
        use op
        exact he
    | call _ _ _ => cases hanswer
    | ret _ _ _ => cases hanswer
  · rintro ⟨op, h⟩
    apply List.mem_filterMap.mpr
    use .act n op c r, h
    exact if_pos rfl

/-- A ticket not given yet has no commands. -/
theorem Sound.answersOf_eq_nil {cfg : Config Client C R σ Op Val} (h : Sound cfg) {n : ℕ}
    (hn : cfg.tickets ≤ n) :
  answersOf n cfg.history = []
  := by
  apply List.filterMap_eq_nil_iff.mpr
  intro e he
  apply if_neg
  have := h.event_lt e he
  omega

section

variable [DecidableEq Client] {M : Machine C R σ Op Val Env}
  {P : Config Client C R σ Op Val → Turn Client Op Env → Prop}
  {cfg : Config Client C R σ Op Val} {s : σ}

/-- Without an environment, the shared state is the result of the commands in the history. -/
theorem replays_of_reaches [IsEmpty Env] (h : M.Reaches P (Config.init s) cfg) :
  Replays M.exec (answers cfg.history) s cfg.shared
  := by
  apply h.invariant fun cfg => Replays M.exec (answers cfg.history) s cfg.shared
  case start => rfl
  case keep =>
    intro cfg l cfg' ih _ hs
    cases hs with
    | call _ | ret _ =>
        simpa [answers_concat, Config.called, Config.returned, Event.answer] using ih
    | env hexec => exact isEmptyElim (α := Env) ‹Env›
    | act _ hexec =>
        simp only [Config.acted, answers_concat]
        apply ih.append
        exact ⟨_, hexec, rfl⟩

/-- The commands of every operation follow its program, up to what its thread has left or to
the value it returned. -/
structure Followed (M : Machine C R σ Op Val Env) (cfg : Config Client C R σ Op Val) :
    Prop where
  running : ∀ i t, cfg.threads i = some t →
    Follows (M.impl t.op) (answersOf t.ticket cfg.history) t.rest
  returned : ∀ n op v, .ret n op v ∈ cfg.history →
    Follows (M.impl op) (answersOf n cfg.history) (.ret v)

namespace Followed

theorem called (h : Followed M cfg) (sound : Sound cfg) (i : Client) (op : Op) :
  Followed M (cfg.called i op (M.impl op))
  := by
  constructor
  case running =>
    intro j t ht
    simp only [Config.called]
    rcases of_update_eq_some ht with ⟨-, ht⟩ | ⟨-, ht⟩
    · obtain rfl := Option.some.inj ht
      rw [answersOf_concat, sound.answersOf_eq_nil (Nat.le_refl _)]
      simp only [Event.answerOf, Event.answer, ite_self]
      apply Follows.refl
    · have := sound.thread_lt j t ht
      rw [answersOf_concat_of_ne (by simp only [Event.ticket_call]; omega)]
      apply h.running j t ht
  case returned =>
    intro n op' v hv
    simp only [Config.called, List.mem_append, List.mem_singleton, reduceCtorEq,
      or_false] at hv ⊢
    have := sound.event_lt _ hv
    simp only [Event.ticket_ret] at this
    rw [answersOf_concat_of_ne (by simp only [Event.ticket_call]; omega)]
    apply h.returned n op' v hv

theorem acted (h : Followed M cfg) (sound : Sound cfg) {i : Client} {n : ℕ} {op : Op} {c : C}
    {next : R c → Prog C R Val} (run : cfg.threads i = some ⟨n, op, .act c next⟩) (r : R c)
    (s : σ) :
  Followed M (cfg.acted i ⟨n, op, .act c next⟩ c r s (next r))
  := by
  have key := h.running i _ run
  constructor
  case running =>
    intro j t ht
    simp only [Config.acted]
    rcases of_update_eq_some ht with ⟨-, ht⟩ | ⟨hji, ht⟩
    · obtain rfl := Option.some.inj ht
      rw [answersOf_concat]
      simp only [Event.answerOf, Event.answer, Event.ticket_act, if_true]
      apply key.concat
    · rw [answersOf_concat_of_ne]
      · apply h.running j t ht
      · intro hn
        apply hji
        apply sound.thread_inj j i t _ ht run hn.symm
  case returned =>
    intro m op' v hv
    simp only [Config.acted, List.mem_append, List.mem_singleton, reduceCtorEq,
      or_false] at hv ⊢
    rw [answersOf_concat_of_ne]
    · apply h.returned m op' v hv
    · rintro rfl
      apply (sound.running i _ run _ hv rfl).2
      simp

theorem ret (h : Followed M cfg) {i : Client} {n : ℕ} {op : Op}
    {v : Val} (run : cfg.threads i = some ⟨n, op, .ret v⟩) :
  Followed M (cfg.returned i ⟨n, op, .ret v⟩ v)
  := by
  have same : ∀ m, answersOf m (cfg.returned i ⟨n, op, .ret v⟩ v).history
      = answersOf m cfg.history := by
    intro m
    simp only [Config.returned, answersOf_concat, Event.answerOf, Event.answer, ite_self,
      Option.toList_none, List.append_nil]
  constructor
  case running =>
    intro j t ht
    rw [same]
    rcases of_update_eq_some ht with ⟨-, ht⟩ | ⟨-, ht⟩
    · cases ht
    · apply h.running j t ht
  case returned =>
    intro m op' w hw
    rw [same]
    simp only [Config.returned, List.mem_append, List.mem_singleton] at hw
    rcases hw with hw | hw
    · apply h.returned m op' w hw
    · obtain ⟨rfl, rfl, rfl⟩ := Event.ret.inj hw
      apply h.running i _ run

theorem of_reaches (h : M.Reaches P (Config.init s) cfg) :
  Followed M cfg
  := by
  have key : Sound cfg ∧ Followed M cfg := by
    apply h.invariant fun cfg => Sound cfg ∧ Followed M cfg
    case start =>
      use Sound.init s
      constructor
      · intro i t ht
        cases ht
      · intro n op v hv
        cases hv
    case keep =>
      rintro cfg l cfg' ⟨sound, ih⟩ _ hs
      use sound.step hs
      cases hs with
      | call _ => apply ih.called sound
      | act run _ => apply ih.acted sound run
      | ret run => apply ih.ret run
      | env _ => exact { ih with }
  apply key.2

end Followed

/-- Every command in the history satisfies what all commands of its operation's program
satisfy. -/
theorem issued_of_reaches {P' : Op → C → Prop} (issues : ∀ op, (M.impl op).Issues (P' op))
    (h : M.Reaches P (Config.init s) cfg) {n : ℕ} {op : Op} {c : C} {r : R c}
    (he : .act n op c r ∈ cfg.history) :
  P' op c
  := by
  have key : (∀ i t, cfg.threads i = some t → t.rest.Issues (P' t.op)) ∧
      ∀ n op c r, .act n op c r ∈ cfg.history → P' op c := by
    apply h.invariant fun cfg => (∀ i t, cfg.threads i = some t → t.rest.Issues (P' t.op)) ∧
      ∀ n op c r, .act n op c r ∈ cfg.history → P' op c
    case start =>
      constructor
      · intro i t ht
        cases ht
      · intro n op c r he
        cases he
    case keep =>
      rintro cfg l cfg' ⟨running, issued⟩ _ hs
      cases hs with
      | call _ =>
          constructor
          · intro j t ht
            rcases of_update_eq_some ht with ⟨-, ht⟩ | ⟨-, ht⟩
            · obtain rfl := Option.some.inj ht
              apply issues
            · apply running j t ht
          · intro m op' c r he
            apply issued m op' c r
            simpa [Config.called] using he
      | act run _ =>
          have next := running _ _ run
          constructor
          · intro j t ht
            rcases of_update_eq_some ht with ⟨-, ht⟩ | ⟨-, ht⟩
            · obtain rfl := Option.some.inj ht
              apply next.2
            · apply running j t ht
          · intro m op' c r he
            simp only [Config.acted, List.mem_append, List.mem_singleton] at he
            rcases he with he | he
            · apply issued m op' c r he
            · obtain ⟨-, rfl, rfl, -⟩ := Event.act.inj he
              apply next.1
      | ret _ =>
          constructor
          · intro j t ht
            rcases of_update_eq_some ht with ⟨-, ht⟩ | ⟨-, ht⟩
            · cases ht
            · apply running j t ht
          · intro m op' c r he
            apply issued m op' c r
            simpa [Config.returned] using he
      | env _ => exact ⟨running, issued⟩
  apply key.2 n op c r he

end

/-- Whatever the answers are, the program issues exactly one command that is a point. -/
def Prog.OnePoint (point : C → Bool) : Prog C R Val → Prop
  | .ret _ => False
  | .act c next =>
      if point c then ∀ r, (next r).Issues fun c' => point c' = false
      else ∀ r, (next r).OnePoint point

theorem Follows.countP_eq_zero {point : C → Bool} {p p' : Prog C R Val} {l : List (Σ c, R c)}
    (h : Follows p l p') (hp : p.Issues fun c => point c = false) :
  l.countP (fun o => point o.1) = 0
  := by
  induction h with
  | refl => rfl
  | act _ ih =>
      rw [List.countP_cons_of_neg (by simp [hp.1])]
      apply ih (hp.2 _)

theorem Follows.countP_le_one {point : C → Bool} {p p' : Prog C R Val} {l : List (Σ c, R c)}
    (h : Follows p l p') (hp : p.OnePoint point) :
  l.countP (fun o => point o.1) ≤ 1
  := by
  induction h with
  | refl => simp
  | act h ih =>
      rw [Prog.OnePoint] at hp
      split at hp
      · apply Nat.le_of_eq
        rw [List.countP_cons_of_pos (by assumption), h.countP_eq_zero (hp _)]
      · rw [List.countP_cons_of_neg (by assumption)]
        apply ih (hp _)

/-- A program that has returned has issued its point. -/
theorem Follows.exists_point {point : C → Bool} {p : Prog C R Val} {v : Val}
    {l : List (Σ c, R c)} (h : Follows p l (.ret v)) (hp : p.OnePoint point) :
  ∃ o ∈ l, point o.1 = true
  := by
  generalize hq : Prog.ret v = q at h
  induction h with
  | refl =>
      subst hq
      cases hp
  | act h ih =>
      rename_i c next r l p'
      rw [Prog.OnePoint] at hp
      split at hp
      · use ⟨c, r⟩, List.mem_cons_self
      · obtain ⟨o, ho, hpoint⟩ := ih (hp _) hq
        use o, List.mem_cons_of_mem _ ho

/-- The commands of a history, each with its ticket and its answer. -/
def sections (history : List (Event Client C R Op Val)) : List (ℕ × Σ c, R c) :=
  history.filterMap fun e => e.answer.map fun o => (e.ticket, o)

/-- `order` is a sequential order of the commands of all operations: executed in order they
give their answers and the shared state, those of one operation follow its program to the
value it returned, and the order respects that of calls and returns and that of the calls
of a client. -/
structure Sequential (M : Machine C R σ Op Val Env) (s : σ) (cfg : Config Client C R σ Op Val)
    (order : List (ℕ × Σ c, R c)) : Prop where
  replays : Replays M.exec (order.map Prod.snd) s cfg.shared
  called : ∀ n o, (n, o) ∈ order → ∃ i op, .call i n op ∈ cfg.history
  returned : ∀ n op v, .ret n op v ∈ cfg.history →
    Follows (M.impl op) ((order.filter fun x => x.1 = n).map Prod.snd) (.ret v)
  realTime : ∀ a op v i b op' o o', Before cfg.history (.ret a op v) (.call i b op') →
    (a, o) ∈ order → (b, o') ∈ order → Before order (a, o) (b, o')
  programOrder : ∀ i a op b op' o o', Before cfg.history (.call i a op) (.call i b op') →
    (a, o) ∈ order → (b, o') ∈ order → Before order (a, o) (b, o')

/-- Without an environment, the commands in the order they were executed are a sequential
order of the commands of all operations. -/
theorem sequential_of_reaches [DecidableEq Client] [IsEmpty Env] {M : Machine C R σ Op Val Env}
    {P : Config Client C R σ Op Val → Turn Client Op Env → Prop}
    {cfg : Config Client C R σ Op Val} {s : σ} (h : M.Reaches P (Config.init s) cfg) :
  Sequential M s cfg (sections cfg.history)
  := by
  have sound := Sound.of_reaches h
  have answersOf_eq : ∀ n, ((sections cfg.history).filter fun x => x.1 = n).map Prod.snd
      = answersOf n cfg.history := by
    intro n
    rw [sections, answersOf, List.filter_filterMap, List.map_filterMap]
    congr 1
    funext e
    rw [Event.answerOf]
    cases e.answer with
    | none => simp
    | some o => by_cases hn : e.ticket = n <;> simp [hn]
  have mem : ∀ {n o}, (n, o) ∈ sections cfg.history →
      ∃ e ∈ cfg.history, e.ticket = n ∧ e.answer.map (fun o => (e.ticket, o)) = some (n, o) := by
    intro n o ho
    obtain ⟨e, he, heo⟩ := List.mem_filterMap.mp ho
    obtain ⟨o', -, ho'⟩ := Option.map_eq_some_iff.mp heo
    use e, he, (Prod.mk.inj ho').1, heo
  have real : ∀ a op v i b op' o o', Before cfg.history (.ret a op v) (.call i b op') →
      (a, o) ∈ sections cfg.history → (b, o') ∈ sections cfg.history →
      Before (sections cfg.history) (a, o) (b, o') := by
    intro a op v i b op' o o' hab ha hb
    obtain ⟨e, he, hea, hx⟩ := mem ha
    obtain ⟨e', he', heb, hy⟩ := mem hb
    apply (sound.real_time hab he he' hea heb).filterMap hx hy
  constructor
  case replays =>
    have key : (sections cfg.history).map Prod.snd = answers cfg.history := by
      rw [sections, answers, List.map_filterMap]
      congr 1
      funext e
      cases e.answer <;> rfl
    rw [key]
    apply replays_of_reaches h
  case called =>
    intro n o ho
    obtain ⟨e, he, rfl, -⟩ := mem ho
    obtain ⟨i, hi⟩ := sound.opened e he
    use i, e.op
  case returned =>
    intro n op v hv
    rw [answersOf_eq]
    apply (Followed.of_reaches h).returned n op v hv
  case realTime => apply real
  case programOrder =>
    intro i a op b op' o o' hab ha hb
    obtain ⟨v, hv⟩ := sound.sequential i a op b op' hab
    apply real a op v i b op' o o' hv ha hb

/-! ### Operations in sequence -/

section

variable (spec : Op → σ → Val × σ)

/-- The values returned by operations executed in order, with their tickets. -/
def outcomes : List (ℕ × Op) → σ → List (ℕ × Val)
  | [], _ => []
  | (n, op) :: ops, s => (n, (spec op s).1) :: outcomes ops (spec op s).2

/-- The state left by operations executed in order. -/
def final : List (ℕ × Op) → σ → σ
  | [], s => s
  | (_, op) :: ops, s => final ops (spec op s).2

theorem outcomes_append (ops ops' : List (ℕ × Op)) (s : σ) :
  outcomes spec (ops ++ ops') s = outcomes spec ops s ++ outcomes spec ops' (final spec ops s)
  := by
  induction ops generalizing s with
  | nil => rfl
  | cons o ops ih => rw [List.cons_append, outcomes, ih, outcomes, final, List.cons_append]

theorem map_fst_outcomes (ops : List (ℕ × Op)) (s : σ) :
  (outcomes spec ops s).map Prod.fst = ops.map Prod.fst
  := by
  induction ops generalizing s with
  | nil => rfl
  | cons o ops ih => rw [outcomes, List.map_cons, List.map_cons, ih]

theorem final_append (ops ops' : List (ℕ × Op)) (s : σ) :
  final spec (ops ++ ops') s = final spec ops' (final spec ops s)
  := by
  induction ops generalizing s with
  | nil => rfl
  | cons o ops ih => apply ih

theorem final_cons (n : ℕ) (op : Op) (ops : List (ℕ × Op)) (s : σ) :
  final spec ((n, op) :: ops) s = final spec ops (spec op s).2
  := rfl

/-- An operation in a sequence without repetitions returns what it returns from the state that
the operations before it left. -/
theorem eq_of_mem_outcomes {ops ops' : List (ℕ × Op)} {n : ℕ} {op : Op} {v : Val} {s : σ}
    (nodup : ((ops ++ (n, op) :: ops').map Prod.fst).Nodup)
    (h : (n, v) ∈ outcomes spec (ops ++ (n, op) :: ops') s) :
  v = (spec op (final spec ops s)).1
  := by
  rw [List.map_append, List.map_cons, List.nodup_middle, List.nodup_cons, List.mem_append,
    not_or] at nodup
  have not : ∀ {ops s}, n ∉ ops.map Prod.fst → (n, v) ∉ outcomes spec ops s := by
    intro ops s hn hv
    apply hn
    rw [← map_fst_outcomes spec ops s]
    apply List.mem_map_of_mem hv
  rw [outcomes_append, List.mem_append, outcomes, List.mem_cons] at h
  rcases h with h | h | h
  · apply absurd h (not nodup.1.1)
  · exact (Prod.mk.inj h).2
  · apply absurd h (not nodup.1.2)

/-- What every operation of a sequence keeps holds after it. -/
theorem final_invariant (I : σ → Prop) {ops : List (ℕ × Op)}
    (keep : ∀ n op s, (n, op) ∈ ops → I s → I (spec op s).2) {s : σ} (hs : I s) :
  I (final spec ops s)
  := by
  induction ops generalizing s with
  | nil => apply hs
  | cons o ops ih =>
      apply ih fun n op s hn => keep n op s (List.mem_cons_of_mem _ hn)
      apply keep o.1 o.2 s List.mem_cons_self hs

end

/-- `order` is a sequential order of the operations of a history: it has every operation that
returned and may have others that were called, each once; an operation that returned before
another was called is before it, and so are the earlier calls of a client. -/
structure Linearizes (history : List (Event Client C R Op Val)) (order : List (ℕ × Op)) :
    Prop where
  nodup : (order.map Prod.fst).Nodup
  called : ∀ n op, (n, op) ∈ order → ∃ i, .call i n op ∈ history
  returned : ∀ n op v, .ret n op v ∈ history → (n, op) ∈ order
  realTime : ∀ a op v i b op', Before history (.ret a op v) (.call i b op') →
    (b, op') ∈ order → Before order (a, op) (b, op')
  programOrder : ∀ i a op b op', Before history (.call i a op) (.call i b op') →
    (b, op') ∈ order → Before order (a, op) (b, op')

/-- The ticket and the operation of an event whose command is a point. -/
def Event.pointed (point : C → Bool) : Event Client C R Op Val → Option (ℕ × Op)
  | .act n op c _ => if point c then some (n, op) else none
  | _ => none

theorem Event.pointed_eq_some {point : C → Bool} {e : Event Client C R Op Val} {x : ℕ × Op}
    (h : e.pointed point = some x) :
  ∃ n op c r, e = .act n op c r ∧ point c = true ∧ x = (n, op)
  := by
  cases e with
  | act n op c r =>
      obtain ⟨hc, hx⟩ := Option.ite_none_right_eq_some.mp h
      use n, op, c, r, rfl, hc, (Option.some.inj hx).symm
  | call _ _ _ => cases h
  | ret _ _ _ => cases h

/-- If the program of every operation issues exactly one point, the order of the points is a
sequential order of the operations. -/
theorem linearizes_of_onePoint [DecidableEq Client] {M : Machine C R σ Op Val Env}
    {P : Config Client C R σ Op Val → Turn Client Op Env → Prop}
    {cfg : Config Client C R σ Op Val} {s : σ} (h : M.Reaches P (Config.init s) cfg)
    {point : C → Bool} (onePoint : ∀ op, (M.impl op).OnePoint point) :
  Linearizes cfg.history (cfg.history.filterMap (Event.pointed point))
  := by
  have sound := Sound.of_reaches h
  have followed := Followed.of_reaches h
  -- at any time the commands of an operation have at most one point
  have once : ∀ {n op c r}, .act n op c r ∈ cfg.history →
      (answersOf n cfg.history).countP (fun o => point o.1) ≤ 1 := by
    intro n op c r he
    obtain ⟨i, hi⟩ := sound.opened _ he
    rcases sound.settled i n op hi with ⟨v, hv⟩ | ⟨t, ht, rfl⟩
    · apply (followed.returned n op v hv).countP_le_one (onePoint op)
    · apply (followed.running i t ht).countP_le_one (onePoint t.op)
  have complete : ∀ {n op v}, .ret n op v ∈ cfg.history →
      ∃ c r, .act n op c r ∈ cfg.history ∧ point c = true := by
    intro n op v hv
    obtain ⟨⟨c, r⟩, ho, hpoint⟩ := (followed.returned n op v hv).exists_point (onePoint op)
    obtain ⟨op', he⟩ := mem_answersOf_iff.mp ho
    obtain rfl : op' = op := sound.op_eq he hv rfl
    use c, r, he
  have real : ∀ a op v i b op', Before cfg.history (.ret a op v) (.call i b op') →
      (b, op') ∈ cfg.history.filterMap (Event.pointed point) →
      Before (cfg.history.filterMap (Event.pointed point)) (a, op) (b, op') := by
    intro a op v i b op' hab hb
    obtain ⟨c, r, he, hpoint⟩ := complete hab.left_mem
    obtain ⟨e', he', hx⟩ := List.mem_filterMap.mp hb
    obtain ⟨b', op'', c', r', rfl, -, hbo⟩ := Event.pointed_eq_some hx
    obtain ⟨rfl, rfl⟩ := Prod.mk.inj hbo
    apply (sound.real_time hab he he' rfl rfl).filterMap _ hx
    exact if_pos hpoint
  constructor
  case nodup =>
    rw [List.Nodup, List.pairwise_map, List.pairwise_filterMap]
    apply List.pairwise_of_forall_sublist
    intro e e' hsub x hx y hy hxy
    obtain ⟨n, op, c, r, rfl, hc, rfl⟩ := Event.pointed_eq_some hx
    obtain ⟨n', op', c', r', rfl, hc', rfl⟩ := Event.pointed_eq_some hy
    obtain rfl : n = n' := hxy
    have two := (hsub.filterMap (Event.answerOf n)).countP_le (p := fun o => point o.1)
    have answer : ([.act n op c r, .act n op' c' r'] :
        List (Event Client C R Op Val)).filterMap (Event.answerOf n)
          = [⟨c, r⟩, ⟨c', r'⟩] := by
      simp [Event.answerOf, Event.answer]
    rw [answer, List.countP_cons_of_pos (by simpa using hc),
      List.countP_cons_of_pos (by simpa using hc')] at two
    have one := once (hsub.subset List.mem_cons_self)
    simp only [answersOf, List.countP_nil] at one two
    omega
  case called =>
    intro n op hn
    obtain ⟨e, he, hx⟩ := List.mem_filterMap.mp hn
    obtain ⟨n', op', c, r, rfl, -, hno⟩ := Event.pointed_eq_some hx
    obtain ⟨rfl, rfl⟩ := Prod.mk.inj hno
    apply sound.opened _ he
  case returned =>
    intro n op v hv
    obtain ⟨c, r, he, hpoint⟩ := complete hv
    apply List.mem_filterMap.mpr
    use .act n op c r, he
    exact if_pos hpoint
  case realTime => apply real
  case programOrder =>
    intro i a op b op' hab hb
    obtain ⟨v, hv⟩ := sound.sequential i a op b op' hab
    apply real a op v i b op' hv hb

end Atomic
