import Mathlib.Data.List.Induction
import SolidServer.Library.FreshCalls
import SolidServer.Library.Linearization

/-!
# Runs, section by section

What a concurrent run does to a part of the state that the environment leaves alone is what
its commands do, in the order they were executed: with `relate o a b` if the command of `o`,
answered as in `o`, takes the part from `a` to `b`, the commands of the history lead from the
first part to the last one (`leads_of_reaches`).  An invariant of the part that may speak
about the commands so far is then an induction over a list of commands, without threads.
What one command establishes holds until a command breaks it (`kept_or_broken`).
If the keys of the calls are fresh, and every operation issues at most one command with a
key, its own, no two commands have the same key (`nodup_issued`).
-/

namespace Atomic

variable {Client C : Type} {R : C → Type} {σ τ Op Val Env K : Type}

/-- The commands take the state from `a` to `b`. -/
def Leads (relate : (Σ c, R c) → τ → τ → Prop) : List (Σ c, R c) → τ → τ → Prop
  | [], a, b => a = b
  | o :: l, a, b => ∃ a', relate o a a' ∧ Leads relate l a' b

namespace Leads

variable {relate : (Σ c, R c) → τ → τ → Prop} {l l' : List (Σ c, R c)} {o : Σ c, R c} {a b : τ}

theorem append_iff :
  Leads relate (l ++ l') a b ↔ ∃ b', Leads relate l a b' ∧ Leads relate l' b' b
  := by
  induction l generalizing a with
  | nil =>
      constructor
      · exact fun h => ⟨a, rfl, h⟩
      · rintro ⟨_, rfl, h⟩
        exact h
  | cons o l ih =>
      constructor
      · rintro ⟨a', ho, h⟩
        obtain ⟨b', hl, hl'⟩ := ih.mp h
        exact ⟨b', ⟨a', ho, hl⟩, hl'⟩
      · rintro ⟨b', ⟨a', ho, hl⟩, hl'⟩
        exact ⟨a', ho, ih.mpr ⟨b', hl, hl'⟩⟩

theorem concat (h : Leads relate l a b) {b' : τ} (ho : relate o b b') :
  Leads relate (l ++ [o]) a b'
  := append_iff.mpr ⟨b, h, b', ho, rfl⟩

/-- What holds without commands and is kept by every command holds after all of them. -/
theorem invariant (h : Leads relate l a b) (I : List (Σ c, R c) → τ → Prop) (start : I [] a)
    (keep : ∀ l o b b', Leads relate l a b → I l b → relate o b b' → I (l ++ [o]) b') :
  I l b
  := by
  induction l using List.reverseRecOn generalizing b with
  | nil =>
      obtain rfl := h
      apply start
  | append_singleton l o ih =>
      obtain ⟨b', hl, b'', ho, rfl⟩ := append_iff.mp h
      apply keep l o b' b'' hl (ih hl) ho

end Leads

section

variable [DecidableEq Client] {M : Machine C R σ Op Val Env}
  {P : Config Client C R σ Op Val → Turn Client Op Env → Prop}
  {cfg : Config Client C R σ Op Val} {s : σ}

/-- The commands of the history lead from what the run began with to what it has come to. -/
theorem leads_of_reaches (part : σ → τ) (relate : (Σ c, R c) → τ → τ → Prop)
    (exec : ∀ c s r t, M.exec c s = some (r, t) → relate ⟨c, r⟩ (part s) (part t))
    (env : ∀ e s t, M.env e s = some t → part t = part s)
    (h : M.Reaches P (Config.init s) cfg) :
  Leads relate (answers cfg.history) (part s) (part cfg.shared)
  := by
  apply h.invariant fun cfg => Leads relate (answers cfg.history) (part s) (part cfg.shared)
  case start => rfl
  case keep =>
    intro cfg l cfg' ih _ hs
    cases hs with
    | call _ | ret _ =>
        simpa [answers_concat, Config.called, Config.returned, Event.answer] using ih
    | @env e t hexec =>
        have still : part t = part cfg.shared := env e cfg.shared t hexec
        simpa only [Config.drifted, still] using ih
    | act _ hexec =>
        simp only [Config.acted, answers_concat]
        apply ih.concat (exec _ _ _ _ hexec)

/-- Before a command in the history, the commands so far have led to where it was executed. -/
theorem leads_before (part : σ → τ) (relate : (Σ c, R c) → τ → τ → Prop)
    (exec : ∀ c s r t, M.exec c s = some (r, t) → relate ⟨c, r⟩ (part s) (part t))
    (env : ∀ e s t, M.env e s = some t → part t = part s)
    (h : M.Reaches P (Config.init s) cfg) {l₁ l₂ : List (Event Client C R Op Val)} {n : ℕ}
    {op : Op} {c : C} {r : R c} (hl : cfg.history = l₁ ++ .act n op c r :: l₂) :
  ∃ b b', Leads relate (answers l₁) (part s) b ∧ relate ⟨c, r⟩ b b'
  := by
  have leads := leads_of_reaches part relate exec env h
  have split : answers cfg.history = answers l₁ ++ ⟨c, r⟩ :: answers l₂ := by
    rw [hl, answers, List.filterMap_append]
    rfl
  rw [split] at leads
  obtain ⟨b, hb, b', ho, -⟩ := Leads.append_iff.mp leads
  exact ⟨b, b', hb, ho⟩

/-- A command of an operation that returned before another was called is among those before
any command of the other. -/
theorem answered_before (h : M.Reaches P (Config.init s) cfg) {a b : ℕ} {op op' : Op} {v : Val}
    {i : Client} (hab : Before cfg.history (.ret a op v) (.call i b op')) {o : Σ c, R c}
    (ho : o ∈ answersOf a cfg.history) {c : C} {r : R c} (hr : ⟨c, r⟩ ∈ answersOf b cfg.history) :
  ∃ l₁ l₂, cfg.history = l₁ ++ .act b op' c r :: l₂ ∧ o ∈ answers l₁
  := by
  have sound := Sound.of_reaches h
  obtain ⟨op₁, hop₁⟩ := mem_answersOf_iff.mp ho
  obtain ⟨op₂, hop₂⟩ := mem_answersOf_iff.mp hr
  obtain ⟨m₁, m₂, hm, h₁, h₂⟩ := sound.real_time hab hop₁ hop₂ rfl rfl
  obtain rfl : op₂ = op' := sound.op_eq hop₂ hab.right_mem rfl
  obtain ⟨m₃, m₄, rfl⟩ := List.append_of_mem h₂
  use m₁ ++ m₃, m₄
  constructor
  · rw [hm, List.append_assoc]
  · apply List.mem_filterMap.mpr
    use .act a op₁ o.1 o.2, List.mem_append_left _ h₁
    rfl

/-- What a command establishes holds from then on, unless a command after it breaks it. -/
theorem kept_or_broken (I : σ → Prop) (Breaks : (Σ c, R c) → Prop) {c : C} {r : R c}
    (establishes : ∀ s t, M.exec c s = some (r, t) → I t)
    (keeps : ∀ c s r t, M.exec c s = some (r, t) → I s → I t ∨ Breaks ⟨c, r⟩)
    (env : ∀ e s t, M.env e s = some t → I s → I t)
    (h : M.Reaches P (Config.init s) cfg) {n : ℕ} {op : Op}
    (hact : .act n op c r ∈ cfg.history) :
  I cfg.shared ∨ ∃ m op' c' r', Breaks ⟨c', r'⟩ ∧
    Before cfg.history (.act n op c r) (.act m op' c' r')
  := by
  revert hact
  apply h.invariant fun cfg => .act n op c r ∈ cfg.history → I cfg.shared ∨
    ∃ m op' c' r', Breaks ⟨c', r'⟩ ∧ Before cfg.history (.act n op c r) (.act m op' c' r')
  case start => exact fun hact => absurd hact List.not_mem_nil
  case keep =>
    -- in the longer history the command was broken before, or it held up to the last step
    have later : ∀ {cfg : Config Client C R σ Op Val} {e : Event Client C R Op Val} {t : σ},
        (I cfg.shared ∨ ∃ m op' c' r', Breaks ⟨c', r'⟩ ∧
          Before cfg.history (.act n op c r) (.act m op' c' r')) →
        (I cfg.shared → I t ∨ ∃ m op' c' r', Breaks ⟨c', r'⟩ ∧
          Before (cfg.history ++ [e]) (.act n op c r) (.act m op' c' r')) →
        I t ∨ ∃ m op' c' r', Breaks ⟨c', r'⟩ ∧
          Before (cfg.history ++ [e]) (.act n op c r) (.act m op' c' r') := by
      rintro cfg e t (held | ⟨m, op', c', r', breaks, hbefore⟩) last
      · apply last held
      · exact .inr ⟨m, op', c', r', breaks, hbefore.append [e]⟩
    intro cfg l cfg' ih _ hs hact
    cases hs with
    | call idle =>
        rcases List.mem_append.mp hact with hact | hact
        · apply later (ih hact) .inl
        · cases List.mem_singleton.mp hact
    | ret ht =>
        rcases List.mem_append.mp hact with hact | hact
        · apply later (ih hact) .inl
        · cases List.mem_singleton.mp hact
    | env hexec =>
        rcases ih hact with held | broken
        · exact .inl (env _ _ _ hexec held)
        · exact .inr broken
    | act ht hexec =>
        rcases List.mem_append.mp hact with hact | hact
        · apply later (ih hact)
          intro held
          rcases keeps _ _ _ _ hexec held with held | breaks
          · exact .inl held
          · exact .inr ⟨_, _, _, _, breaks, Before.concat hact _⟩
        · cases List.mem_singleton.mp hact
          exact .inl (establishes _ _ hexec)

/-- No two commands have the same key. -/
theorem nodup_issued {key : Op → Option K} {issued : C → Option K}
    (h : M.Reaches P (Config.init s) cfg) (fresh : FreshCalls key cfg)
    (issues : ∀ op, (M.impl op).Issues fun c => ∀ k, issued c = some k → key op = some k)
    (once : ∀ op, (key op).isSome → (M.impl op).OnePoint fun c => (issued c).isSome) :
  ((answers cfg.history).filterMap fun o => issued o.1).Nodup
  := by
  have sound := Sound.of_reaches h
  have followed := Followed.of_reaches h
  rw [answers, List.filterMap_filterMap, List.Nodup, List.pairwise_filterMap]
  apply List.pairwise_of_forall_sublist
  intro e e' hsub k hk k' hk' hkk'
  subst hkk'
  obtain ⟨o, ho, hok⟩ := Option.bind_eq_some_iff.mp hk
  obtain ⟨o', ho', hok'⟩ := Option.bind_eq_some_iff.mp hk'
  have he := hsub.subset List.mem_cons_self
  have he' := hsub.subset (List.mem_cons_of_mem _ (List.mem_singleton_self e'))
  cases e with
  | call _ _ _ | ret _ _ _ => cases ho
  | act n op c r =>
      cases e' with
      | call _ _ _ | ret _ _ _ => cases ho'
      | act n' op' c' r' =>
          obtain rfl := Option.some.inj ho
          obtain rfl := Option.some.inj ho'
          have hkey := issued_of_reaches issues h he k hok
          have hkey' := issued_of_reaches issues h he' k hok'
          obtain ⟨i, hi⟩ := sound.opened _ he
          obtain ⟨i', hi'⟩ := sound.opened _ he'
          have same := fresh.event_eq hi hi' hkey hkey'
          simp only [Event.ticket_act, Event.op_act, Event.call.injEq] at same
          obtain ⟨rfl, rfl, rfl⟩ := same
          -- both commands belong to one operation, which has issued one of them only
          have two := (hsub.filterMap (Event.answerOf n)).countP_le
            (p := fun o => (issued o.1).isSome)
          have answer : ([.act n op c r, .act n op c' r'] :
              List (Event Client C R Op Val)).filterMap (Event.answerOf n)
                = [⟨c, r⟩, ⟨c', r'⟩] := by
            simp [Event.answerOf, Event.answer]
          rw [answer, List.countP_cons_of_pos (by simp [hok]),
            List.countP_cons_of_pos (by simp [hok'])] at two
          have one : (answersOf n cfg.history).countP (fun o => (issued o.1).isSome) ≤ 1 := by
            have point := once op (by rw [hkey]; rfl)
            rcases sound.settled i n op hi with ⟨v, hv⟩ | ⟨t, ht, rfl⟩
            · apply (followed.returned n op v hv).countP_le_one point
            · obtain ⟨hop, -⟩ := sound.running i t ht _ hi rfl
              obtain rfl : op = t.op := hop
              apply (followed.running i t ht).countP_le_one point
          simp only [answersOf, List.countP_nil] at one two
          omega

/-- An invariant of the part that holds at the start, and is kept by every command whose key is
not that of a command before, holds where a command of the history was executed; and the key of
that command is not that of a command before. -/
theorem invariant_before {key : Op → Option K} {issued : C → Option K} (part : σ → τ)
    (relate : (Σ c, R c) → τ → τ → Prop)
    (exec : ∀ c s r t, M.exec c s = some (r, t) → relate ⟨c, r⟩ (part s) (part t))
    (env : ∀ e s t, M.env e s = some t → part t = part s)
    (issues : ∀ op, (M.impl op).Issues fun c => ∀ k, issued c = some k → key op = some k)
    (once : ∀ op, (key op).isSome → (M.impl op).OnePoint fun c => (issued c).isSome)
    (I : List (Σ c, R c) → τ → Prop) (start : I [] (part s))
    (keep : ∀ log o a b, I log a → relate o a b →
      (∀ k, issued o.1 = some k → ∀ o' ∈ log, issued o'.1 ≠ some k) → I (log ++ [o]) b)
    (h : M.Reaches P (Config.init s) cfg) (fresh : FreshCalls key cfg)
    {l₁ l₂ : List (Event Client C R Op Val)} {n : ℕ} {op : Op} {c : C} {r : R c}
    (hl : cfg.history = l₁ ++ .act n op c r :: l₂) :
  ∃ a b, I (answers l₁) a ∧ relate ⟨c, r⟩ a b ∧
    ∀ k, issued c = some k → ∀ o' ∈ answers l₁, issued o'.1 ≠ some k
  := by
  have nodup := nodup_issued h fresh issues once
  rw [hl, answers, List.filterMap_append, List.filterMap_append] at nodup
  obtain ⟨nodup, -, disjoint⟩ := List.nodup_append.mp nodup
  obtain ⟨a, b, leads, hrelate⟩ := leads_before part relate exec env h hl
  refine ⟨a, b, ?_, hrelate, ?_⟩
  · apply leads.invariant (fun log a => (log.filterMap fun o => issued o.1).Nodup → I log a)
    case start => exact fun _ => start
    case keep =>
      intro log o a b _ ih ho nodup
      rw [List.filterMap_append] at nodup
      obtain ⟨nodup, -, disjoint⟩ := List.nodup_append.mp nodup
      apply keep log o a b (ih nodup) ho
      intro k hk o' ho' hk'
      apply disjoint k (List.mem_filterMap.mpr ⟨o', ho', hk'⟩) k
        (List.mem_filterMap.mpr ⟨o, List.mem_singleton_self o, hk⟩) rfl
    apply nodup
  · intro k hk o' ho' hk'
    apply disjoint k (List.mem_filterMap.mpr ⟨o', ho', hk'⟩) k
      (List.mem_filterMap.mpr ⟨⟨c, r⟩, List.mem_cons_self, hk⟩) rfl

end

end Atomic
