import Mathlib.Data.List.Forall2
import SolidServer.Library.Interleaving

/-!
# Two runs side by side

Two runs of a machine are compared that take the same turns, from states that look the same,
and with calls of operations that are alike.  If alike operations have alike programs, which is
a condition on the programs one by one (`Prog.Alike`), whatever the first run does, the second
one does as well, with an event that is alike for each event of the first
(`Machine.alike_of_execute`).  The values of the operations that are shown are then the same in
the two runs: the rest of what the runs differ in has no influence on them
(`Machine.seen_eq_of_execute`).
-/

namespace Atomic

variable {Client C : Type} {R : C → Type} {σ Op Val Env : Type}

/-- Two programs issue commands in step that succeed in states that look the same if one of
them does, and leave states that look the same, and then return values that are alike. -/
def Prog.Alike (M : Machine C R σ Op Val Env) (same : σ → σ → Prop) (vals : Val → Val → Prop) :
    Prog C R Val → Prog C R Val → Prop
  | .ret v, .ret v' => vals v v'
  | .act c next, .act c' next' =>
      ∀ s s' r t, same s s' → M.exec c s = some (r, t) →
        ∃ r' t', M.exec c' s' = some (r', t') ∧ same t t' ∧ (next r).Alike M same vals (next' r')
  | _, _ => False

/-- The same turn, where the operations that are called are alike. -/
inductive Turn.Alike (ops : Op → Op → Prop) : Turn Client Op Env → Turn Client Op Env → Prop where
  | call (i) {op op'} (h : ops op op') : Turn.Alike ops (.call i op) (.call i op')
  | act (i) : Turn.Alike ops (.act i) (.act i)
  | ret (i) : Turn.Alike ops (.ret i) (.ret i)
  | env (e) : Turn.Alike ops (.env e) (.env e)

section

variable (M : Machine C R σ Op Val Env) (same : σ → σ → Prop) (ops : Op → Op → Prop)
  (shows : Op → Bool)

/-- The values of an operation that are alike: they are the same if the operation is shown. -/
def SameShown (op : Op) (v v' : Val) : Prop :=
  shows op = true → v = v'

/-- Threads with programs that are alike. -/
structure Thread.Alike (t t' : Thread C R Op Val) : Prop where
  ticket : t.ticket = t'.ticket
  op : ops t.op t'.op
  rest : t.rest.Alike M same (SameShown shows t.op) t'.rest

/-- Events of operations that are alike; only the values of those that are shown are the
same. -/
inductive Event.Alike : Event Client C R Op Val → Event Client C R Op Val → Prop where
  | call (i n) {op op'} (h : ops op op') : Event.Alike (.call i n op) (.call i n op')
  | act (n) {op op'} (h : ops op op') (c r c' r') : Event.Alike (.act n op c r) (.act n op' c' r')
  | ret (n) {op op' v v'} (h : ops op op') (hv : SameShown shows op v v') :
      Event.Alike (.ret n op v) (.ret n op' v')

/-- Configurations that two runs are in at the same time. -/
structure Config.Alike (cfg cfg' : Config Client C R σ Op Val) : Prop where
  shared : same cfg.shared cfg'.shared
  tickets : cfg.tickets = cfg'.tickets
  threads : ∀ i, Option.Rel (Thread.Alike M same ops shows) (cfg.threads i) (cfg'.threads i)
  history : List.Forall₂ (Event.Alike ops shows) cfg.history cfg'.history

end

/-- The value of an operation that is shown. -/
def Event.shown (shows : Op → Bool) : Event Client C R Op Val → Option (ℕ × Val)
  | .ret n op v => if shows op then some (n, v) else none
  | _ => none

/-- The values of the operations that are shown, in the order they returned. -/
def seen (shows : Op → Bool) (history : List (Event Client C R Op Val)) : List (ℕ × Val) :=
  history.filterMap (Event.shown shows)

variable {M : Machine C R σ Op Val Env} {same : σ → σ → Prop} {ops : Op → Op → Prop}
  {shows : Op → Bool}

theorem Event.Alike.shown_eq (hops : ∀ op op', ops op op' → shows op = shows op')
    {e e' : Event Client C R Op Val} (h : e.Alike ops shows e') :
  e.shown shows = e'.shown shows
  := by
  cases h with
  | call | act => rfl
  | @ret n op op' v v' hop hv =>
      simp only [Event.shown, ← hops op op' hop]
      split
      · rw [hv ‹_›]
      · rfl

/-- Histories of events that are alike show the same. -/
theorem seen_eq_of_alike (hops : ∀ op op', ops op op' → shows op = shows op')
    {l l' : List (Event Client C R Op Val)} (h : List.Forall₂ (Event.Alike ops shows) l l') :
  seen shows l = seen shows l'
  := by
  induction h with
  | nil => rfl
  | cons he _ ih =>
      rw [seen] at ih
      rw [seen, List.filterMap_cons, he.shown_eq hops, ih]
      rfl

namespace Config.Alike

variable {cfg cfg' cfg₁ : Config Client C R σ Op Val}

theorem init {s s' : σ} (h : same s s') :
  Config.Alike M same ops shows (Config.init s : Config Client C R σ Op Val) (Config.init s')
  := ⟨h, rfl, fun _ => .none, .nil⟩

variable [DecidableEq Client]

/-- Threads stay alike when those of one client are replaced by threads that are alike. -/
theorem update (h : Config.Alike M same ops shows cfg cfg') (i : Client)
    {t t' : Option (Thread C R Op Val)} (ht : Option.Rel (Thread.Alike M same ops shows) t t')
    (j : Client) :
  Option.Rel (Thread.Alike M same ops shows) (Function.update cfg.threads i t j)
    (Function.update cfg'.threads i t' j)
  := by
  by_cases hji : j = i
  · subst hji
    rw [Function.update_self, Function.update_self]
    apply ht
  · rw [Function.update_of_ne hji, Function.update_of_ne hji]
    apply h.threads j

/-- What one run does in a turn, the other one does as well. -/
theorem step (h : Config.Alike M same ops shows cfg cfg')
    (impl : ∀ op op', ops op op' →
      (M.impl op).Alike M same (SameShown shows op) (M.impl op'))
    (env : ∀ e s s' t, same s s' → M.env e s = some t → ∃ t', M.env e s' = some t' ∧ same t t')
    {l l' : Turn Client Op Env} (hl : l.Alike ops l') (hstep : M.Step cfg l cfg₁) :
  ∃ cfg₁', M.step cfg' l' = some cfg₁' ∧ Config.Alike M same ops shows cfg₁ cfg₁'
  := by
  cases hstep with
  | @call i op idle =>
      cases hl with
      | @call _ _ op' hop =>
          have idle' := h.threads i
          rw [idle] at idle'
          cases hi : cfg'.threads i with
          | some t =>
              rw [hi] at idle'
              cases idle'
          | none =>
              use cfg'.called i op' (M.impl op')
              constructor
              · simp only [Machine.step, hi]
              · constructor
                case shared => exact h.shared
                case tickets => exact congrArg (· + 1) h.tickets
                case threads => exact h.update i (.some ⟨h.tickets, hop, impl op op' hop⟩)
                case history =>
                  apply List.rel_append h.history
                  rw [h.tickets]
                  exact .cons (.call i _ hop) .nil
  | @act i n op c next r s running exec =>
      cases hl with
      | act _ =>
          have running' := h.threads i
          rw [running] at running'
          cases hi : cfg'.threads i with
          | none =>
              rw [hi] at running'
              cases running'
          | some t' =>
              rw [hi] at running'
              cases running' with
              | some alike =>
                  obtain ⟨rfl, hop, rest⟩ := alike
                  obtain ⟨m, op', p'⟩ := t'
                  cases p' with
                  | ret v' => cases rest
                  | act c' next' =>
                      obtain ⟨r', s', exec', hsame, hnext⟩ :=
                        rest cfg.shared cfg'.shared r s h.shared exec
                      use cfg'.acted i ⟨m, op', .act c' next'⟩ c' r' s' (next' r')
                      constructor
                      · simp only [Machine.step, hi, exec', Option.map_some]
                      · constructor
                        case shared => exact hsame
                        case tickets => exact h.tickets
                        case threads => exact h.update i (.some ⟨rfl, hop, hnext⟩)
                        case history =>
                          apply List.rel_append h.history
                          exact .cons (.act m hop c r c' r') .nil
  | @ret i n op v running =>
      cases hl with
      | ret _ =>
          have running' := h.threads i
          rw [running] at running'
          cases hi : cfg'.threads i with
          | none =>
              rw [hi] at running'
              cases running'
          | some t' =>
              rw [hi] at running'
              cases running' with
              | some alike =>
                  obtain ⟨rfl, hop, rest⟩ := alike
                  obtain ⟨m, op', p'⟩ := t'
                  cases p' with
                  | act c' next' => cases rest
                  | ret v' =>
                      use cfg'.returned i ⟨m, op', .ret v'⟩ v'
                      constructor
                      · simp only [Machine.step, hi]
                      · constructor
                        case shared => exact h.shared
                        case tickets => exact h.tickets
                        case threads => exact h.update i .none
                        case history =>
                          apply List.rel_append h.history
                          exact .cons (.ret m hop rest) .nil
  | @env e s exec =>
      cases hl with
      | env _ =>
          obtain ⟨s', exec', hsame⟩ := env e cfg.shared cfg'.shared s h.shared exec
          use cfg'.drifted s'
          constructor
          · simp only [Machine.step, exec', Option.map_some]
          · exact ⟨hsame, h.tickets, h.threads, h.history⟩

end Config.Alike

namespace Machine

variable [DecidableEq Client] {cfg cfg' cfg₁ : Config Client C R σ Op Val}

/-- A run that takes the same turns, from a configuration that is alike, does the same. -/
theorem alike_of_execute (impl : ∀ op op', ops op op' →
      (M.impl op).Alike M same (SameShown shows op) (M.impl op'))
    (env : ∀ e s s' t, same s s' → M.env e s = some t → ∃ t', M.env e s' = some t' ∧ same t t')
    {turns turns' : List (Turn Client Op Env)}
    (hturns : List.Forall₂ (Turn.Alike ops) turns turns')
    (h : Config.Alike M same ops shows cfg cfg') (hrun : M.execute cfg turns = some cfg₁) :
  ∃ cfg₁', M.execute cfg' turns' = some cfg₁' ∧ Config.Alike M same ops shows cfg₁ cfg₁'
  := by
  induction hturns generalizing cfg cfg' with
  | nil =>
      obtain rfl := Option.some.inj hrun
      exact ⟨cfg', rfl, h⟩
  | cons hl _ ih =>
      obtain ⟨cfg₂, hstep, hrest⟩ := Option.bind_eq_some_iff.mp hrun
      obtain ⟨cfg₂', hstep', h'⟩ := h.step impl env hl (Step.of_step M hstep)
      obtain ⟨cfg₁', hrest', halike⟩ := ih h' hrest
      refine ⟨cfg₁', ?_, halike⟩
      rw [execute, hstep']
      apply hrest'

/-- What is shown in a run is shown in every run with the same turns, from a state that looks
the same, and with calls of operations that are alike. -/
theorem seen_eq_of_execute (impl : ∀ op op', ops op op' →
      (M.impl op).Alike M same (SameShown shows op) (M.impl op'))
    (env : ∀ e s s' t, same s s' → M.env e s = some t → ∃ t', M.env e s' = some t' ∧ same t t')
    (hops : ∀ op op', ops op op' → shows op = shows op')
    {turns turns' : List (Turn Client Op Env)}
    (hturns : List.Forall₂ (Turn.Alike ops) turns turns') {s s' : σ} (hs : same s s')
    (hrun : M.execute (Config.init s) turns = some cfg) :
  ∃ cfg', M.execute (Config.init s') turns' = some cfg' ∧
    seen shows cfg'.history = seen shows cfg.history ∧ same cfg.shared cfg'.shared
  := by
  obtain ⟨cfg', hrun', halike⟩ := alike_of_execute impl env hturns (Config.Alike.init hs) hrun
  exact ⟨cfg', hrun', (seen_eq_of_alike hops halike.history).symm, halike.shared⟩

end Machine

end Atomic
