import SolidServer.Library.Linearization

/-!
# Linearization up to what is observed

The operations of a machine need not be linearizable to look so: their effects may have to
be equal only in the part of the state that can be observed, and their values may matter for
some operations only.  A `View` of a machine gives the sequential meaning of the operations,
says which states look the same and which operations are observed, and places every
operation in a sequential order, at its call or at one of its commands.  Where the view is
`Faithful`, which is a condition on the programs of the operations one by one, the placement
is a sequential order of every concurrent run (`Machine.linearizes_of_faithful`).
-/

namespace Atomic

variable {Client C : Type} {R : C → Type} {σ Op Val Env : Type}

/-- The sequential meaning of the operations, the states that look the same, the operations
whose values are observed, and the place of every operation in a sequential order. -/
structure View (C σ Op Val : Type) where
  spec : Op → σ → Val × σ
  Same : σ → σ → Prop
  Observed : Op → Prop
  atCall : Op → Bool
  atCommand : Op → C → Bool

/-- The ticket and the operation of an event that an operation is placed at. -/
def Event.placed (V : View C σ Op Val) : Event Client C R Op Val → Option (ℕ × Op)
  | .call _ n op => if V.atCall op then some (n, op) else none
  | .act n op c _ => if V.atCommand op c then some (n, op) else none
  | .ret _ _ _ => none

theorem Event.placed_eq_some {V : View C σ Op Val} {e : Event Client C R Op Val} {x : ℕ × Op}
    (h : e.placed V = some x) :
  x = (e.ticket, e.op)
  := by
  cases e with
  | call i n op => apply (Option.some.inj (Option.ite_none_right_eq_some.mp h).2).symm
  | act n op c r => apply (Option.some.inj (Option.ite_none_right_eq_some.mp h).2).symm
  | ret _ _ _ => cases h

namespace View

variable (V : View C σ Op Val)

/-- The operations in the order of the events they are placed at. -/
def order (history : List (Event Client C R Op Val)) : List (ℕ × Op) :=
  history.filterMap (Event.placed V)

theorem order_concat (history : List (Event Client C R Op Val)) (e : Event Client C R Op Val) :
  V.order (history ++ [e]) = V.order history ++ (e.placed V).toList
  := by
  rw [order, List.filterMap_append, List.filterMap_cons]
  cases e.placed V <;> rfl

/-- The operations that are placed have been called. -/
theorem exists_event_of_mem_order {history : List (Event Client C R Op Val)} {n : ℕ} {op : Op}
    (h : (n, op) ∈ V.order history) :
  ∃ e ∈ history, e.placed V = some (n, op) ∧ e.ticket = n ∧ e.op = op
  := by
  obtain ⟨e, he, hx⟩ := List.mem_filterMap.mp h
  obtain ⟨rfl, rfl⟩ := Prod.mk.inj (Event.placed_eq_some hx)
  use e, he, hx

end View

/-- If every operation is placed at most once, and is placed when it has returned, the
placement is a sequential order. -/
theorem View.linearizes [DecidableEq Client] {M : Machine C R σ Op Val Env}
    {P : Config Client C R σ Op Val → Turn Client Op Env → Prop}
    {cfg : Config Client C R σ Op Val} {s : σ} (h : M.Reaches P (Config.init s) cfg)
    {V : View C σ Op Val} (nodup : ((V.order cfg.history).map Prod.fst).Nodup)
    (returned : ∀ n op v, .ret n op v ∈ cfg.history → (n, op) ∈ V.order cfg.history) :
  Linearizes cfg.history (V.order cfg.history)
  := by
  have sound := Sound.of_reaches h
  have real : ∀ a op v i b op', Before cfg.history (.ret a op v) (.call i b op') →
      (b, op') ∈ V.order cfg.history →
      Before (V.order cfg.history) (a, op) (b, op') := by
    intro a op v i b op' hab hb
    obtain ⟨e, he, hx, ha, -⟩ := V.exists_event_of_mem_order (returned a op v hab.left_mem)
    obtain ⟨e', he', hx', hb', -⟩ := V.exists_event_of_mem_order hb
    apply (sound.real_time hab he he' ha hb').filterMap hx hx'
  constructor
  case nodup => apply nodup
  case called =>
    intro n op hn
    obtain ⟨e, he, -, rfl, rfl⟩ := V.exists_event_of_mem_order hn
    apply sound.opened e he
  case returned => apply returned
  case realTime => apply real
  case programOrder =>
    intro i a op b op' hab hb
    obtain ⟨v, hv⟩ := sound.sequential i a op b op' hab
    apply real a op v i b op' hv hb

namespace Machine

variable (M : Machine C R σ Op Val Env) (V : View C σ Op Val)

/-- The command is answered `r` in some state. -/
def Answers (c : C) (r : R c) : Prop :=
  ∃ s t, M.exec c s = some (r, t)

/-- The command changes nothing that is observed. -/
def Silent (c : C) : Prop :=
  ∀ t u r u', V.Same t u → M.exec c u = some (r, u') → V.Same t u'

/-- From here on the operation issues silent commands only, and returns `v` if it is
observed. -/
def Fades (op : Op) (v : Val) : Prog C R Val → Prop
  | .ret a => V.Observed op → a = v
  | .act c next => V.atCommand op c = false ∧ M.Silent V c ∧
      ∀ r, M.Answers c r → Fades op v (next r)

/-- The operation issues silent commands up to the one it is placed at.  That one does what
the operation does when it is executed alone, and its answer decides what is returned. -/
def Hinges (op : Op) : Prog C R Val → Prop
  | .ret _ => False
  | .act c next =>
      (V.atCommand op c = true ∧ ∀ t u r u', V.Same t u → M.exec c u = some (r, u') →
        V.Same (V.spec op t).2 u' ∧
          ∃ v, M.Fades V op v (next r) ∧ (V.Observed op → (V.spec op t).1 = v)) ∨
      (V.atCommand op c = false ∧ M.Silent V c ∧
        ∀ r, M.Answers c r → Hinges op (next r))

/-- The operation issues silent commands only, and executed alone it changes nothing and
returns the same. -/
def Idles (op : Op) (p : Prog C R Val) : Prop :=
  ∃ v, M.Fades V op v p ∧ ∀ t u, V.Same t u →
    V.Same (V.spec op t).2 u ∧ (V.Observed op → (V.spec op t).1 = v)

/-- The operations that are placed at their calls do nothing; the others have a command that
does all. -/
def Faithful : Prop :=
  ∀ op, (V.atCall op = true ∧ M.Idles V op (M.impl op)) ∨
    (V.atCall op = false ∧ M.Hinges V op (M.impl op))

/-- The operation has been placed in the order, and `v` is what it returns there if it is
observed. -/
def Settled (order : List (ℕ × Op)) (s : σ) (n : ℕ) (op : Op) (v : Val) : Prop :=
  (n, op) ∈ order ∧ (V.Observed op → (n, v) ∈ outcomes V.spec order s)

/-- An operation in progress is not placed yet, and has the command to come that it will be
placed at, or is placed, and will return what it returns in the order. -/
def OnTrack (order : List (ℕ × Op)) (s : σ) (t : Thread C R Op Val) : Prop :=
  (t.ticket ∉ order.map Prod.fst ∧ M.Hinges V t.op t.rest) ∨
    ∃ v, Settled V order s t.ticket t.op v ∧ M.Fades V t.op v t.rest

/-- The operations executed one after another, as they are placed, look as the concurrent
run does: the state is the same so far, and what is observed was returned or will be. -/
structure Tracked (s : σ) (cfg : Config Client C R σ Op Val) : Prop where
  same : V.Same (final V.spec (V.order cfg.history) s) cfg.shared
  nodup : ((V.order cfg.history).map Prod.fst).Nodup
  running : ∀ i t, cfg.threads i = some t → M.OnTrack V (V.order cfg.history) s t
  returned : ∀ n op v, .ret n op v ∈ cfg.history →
    Settled V (V.order cfg.history) s n op v

end Machine

namespace Machine

variable {M : Machine C R σ Op Val Env} {V : View C σ Op Val} {s : σ}
  {order order' : List (ℕ × Op)}

/-- An operation stays where it is placed when others are placed after it. -/
theorem Settled.append {n : ℕ} {op : Op} {v : Val} (h : Settled V order s n op v)
    (order' : List (ℕ × Op)) :
  Settled V (order ++ order') s n op v
  := by
  use List.mem_append_left _ h.1
  intro hop
  rw [outcomes_append]
  apply List.mem_append_left _ (h.2 hop)

/-- An operation placed last returns what it returns in the state that the others left. -/
theorem Settled.last {n : ℕ} {op : Op} {v : Val}
    (h : V.Observed op → (V.spec op (final V.spec order s)).1 = v) :
  Settled V (order ++ [(n, op)]) s n op v
  := by
  use List.mem_append_right _ (List.mem_singleton_self _)
  intro hop
  rw [outcomes_append, ← h hop]
  apply List.mem_append_right _ (List.mem_singleton_self _)

/-- An operation stays on track when other operations are placed. -/
theorem OnTrack.append {t : Thread C R Op Val} (h : M.OnTrack V order s t)
    (hn : t.ticket ∉ order'.map Prod.fst) :
  M.OnTrack V (order ++ order') s t
  := by
  rcases h with ⟨horder, hinges⟩ | ⟨v, settled, fades⟩
  · left
    refine ⟨?_, hinges⟩
    rw [List.map_append, List.mem_append, not_or]
    exact ⟨horder, hn⟩
  · right
    exact ⟨v, settled.append order', fades⟩

namespace Tracked

variable {cfg : Config Client C R σ Op Val}

theorem init (h : V.Same s s) :
  M.Tracked V s (Config.init s : Config Client C R σ Op Val)
  := by
  constructor
  case same => apply h
  case nodup => apply List.nodup_nil
  case running =>
    intro i t ht
    cases ht
  case returned =>
    intro n op v hv
    cases hv

/-- A ticket that is not given yet is not placed. -/
theorem not_placed (sound : Sound cfg) :
  cfg.tickets ∉ (V.order cfg.history).map Prod.fst
  := by
  intro h
  obtain ⟨⟨n, op⟩, hx, hn⟩ := List.mem_map.mp h
  obtain ⟨e, he, -, hticket, -⟩ := V.exists_event_of_mem_order hx
  have := sound.event_lt e he
  simp only at hn
  omega

/-- An event that no operation is placed at, and that leaves the state as it looks, keeps the
tracking, if it keeps its own operation on track. -/
theorem extend (h : M.Tracked V s cfg) {cfg' : Config Client C R σ Op Val}
    {e : Event Client C R Op Val} (hhistory : cfg'.history = cfg.history ++ [e])
    {l : List (ℕ × Op)} (hl : (e.placed V).toList = l)
    (same : V.Same (final V.spec (V.order cfg.history ++ l) s) cfg'.shared)
    (fresh : ∀ x ∈ l, x.1 ∉ (V.order cfg.history).map Prod.fst)
    (running : ∀ i t, cfg'.threads i = some t →
      (cfg.threads i = some t ∧ t.ticket ∉ l.map Prod.fst) ∨
        M.OnTrack V (V.order cfg.history ++ l) s t)
    (returned : ∀ n op v, e = .ret n op v → Settled V (V.order cfg.history ++ l) s n op v) :
  M.Tracked V s cfg'
  := by
  have order : V.order cfg'.history = V.order cfg.history ++ l := by
    rw [hhistory, V.order_concat, hl]
  constructor
  case same =>
    rw [order]
    apply same
  case nodup =>
    rw [order, List.map_append]
    apply h.nodup.append
    · rw [← hl]
      cases e.placed V with
      | none => apply List.nodup_nil
      | some x => apply List.nodup_singleton
    · intro n hn hn'
      obtain ⟨x, hx, rfl⟩ := List.mem_map.mp hn'
      apply fresh x hx hn
  case running =>
    intro i t ht
    rw [order]
    rcases running i t ht with ⟨ht, hn⟩ | htrack
    · apply (h.running i t ht).append hn
    · apply htrack
  case returned =>
    intro n op v hv
    rw [order]
    rw [hhistory, List.mem_append, List.mem_singleton] at hv
    rcases hv with hv | hv
    · apply (h.returned n op v hv).append
    · apply returned n op v hv.symm

variable [DecidableEq Client]

/-- A called operation is placed at once if it idles. -/
theorem called (h : M.Tracked V s cfg) (sound : Sound cfg) (faithful : M.Faithful V)
    (i : Client) (op : Op) :
  M.Tracked V s (cfg.called i op (M.impl op))
  := by
  have others : ∀ j t, (cfg.called i op (M.impl op)).threads j = some t →
      t = ⟨cfg.tickets, op, M.impl op⟩ ∨ (cfg.threads j = some t ∧ t.ticket ≠ cfg.tickets) := by
    intro j t ht
    rcases of_update_eq_some ht with ⟨-, ht⟩ | ⟨-, ht⟩
    · left
      apply (Option.some.inj ht).symm
    · right
      use ht
      have := sound.thread_lt j t ht
      omega
  rcases faithful op with ⟨hcall, v, fades, idle⟩ | ⟨hcall, hinges⟩
  · obtain ⟨same, value⟩ := idle _ _ h.same
    apply h.extend (e := .call i cfg.tickets op) (l := [(cfg.tickets, op)]) rfl
    · rw [Event.placed, if_pos hcall]
      rfl
    · rw [final_append]
      apply same
    · intro x hx
      obtain rfl := List.mem_singleton.mp hx
      apply not_placed sound
    · intro j t ht
      rcases others j t ht with rfl | ⟨ht, hne⟩
      · right
        right
        exact ⟨v, Settled.last value, fades⟩
      · left
        simpa using ⟨ht, hne⟩
    · intro n op' v' he
      cases he
  · apply h.extend (e := .call i cfg.tickets op) (l := []) rfl
    · rw [Event.placed, if_neg (by simp [hcall])]
      rfl
    · rw [List.append_nil]
      apply h.same
    · intro x hx
      cases hx
    · intro j t ht
      rw [List.append_nil]
      rcases others j t ht with rfl | ⟨ht, -⟩
      · right
        left
        exact ⟨not_placed sound, hinges⟩
      · left
        simpa using ht
    · intro n op' v' he
      cases he

/-- A command is silent, or the one that its operation is placed at. -/
theorem acted (h : M.Tracked V s cfg) (sound : Sound cfg) {i : Client} {n : ℕ} {op : Op} {c : C}
    {next : R c → Prog C R Val} (run : cfg.threads i = some ⟨n, op, .act c next⟩) {r : R c}
    {t : σ} (hexec : M.exec c cfg.shared = some (r, t)) :
  M.Tracked V s (cfg.acted i ⟨n, op, .act c next⟩ c r t (next r))
  := by
  have others : ∀ j u, (cfg.acted i ⟨n, op, .act c next⟩ c r t (next r)).threads j = some u →
      u = ⟨n, op, next r⟩ ∨ (cfg.threads j = some u ∧ u.ticket ≠ n) := by
    intro j u hu
    rcases of_update_eq_some hu with ⟨-, hu⟩ | ⟨hji, hu⟩
    · left
      apply (Option.some.inj hu).symm
    · right
      use hu
      intro hn
      apply hji
      apply sound.thread_inj j i u _ hu run hn
  -- a silent command places nothing, and its operation goes on
  have silent : V.atCommand op c = false → M.Silent V c →
      M.OnTrack V (V.order cfg.history) s ⟨n, op, next r⟩ →
      M.Tracked V s (cfg.acted i ⟨n, op, .act c next⟩ c r t (next r)) := by
    intro hc hsilent track
    apply h.extend (e := .act n op c r) (l := []) rfl
    · rw [Event.placed, if_neg (by simp [hc])]
      rfl
    · rw [List.append_nil]
      apply hsilent _ _ _ _ h.same hexec
    · intro x hx
      cases hx
    · intro j u hu
      rw [List.append_nil]
      rcases others j u hu with rfl | ⟨hu, -⟩
      · right
        apply track
      · left
        simpa using hu
    · intro m op' v he
      cases he
  rcases h.running i _ run with ⟨hn, hinges⟩ | ⟨v, settled, hc, hsilent, fades⟩
  · rcases hinges with ⟨hc, key⟩ | ⟨hc, hsilent, hinges⟩
    · obtain ⟨same, v, fades, value⟩ := key _ _ _ _ h.same hexec
      apply h.extend (e := .act n op c r) (l := [(n, op)]) rfl
      · rw [Event.placed, if_pos hc]
        rfl
      · rw [final_append]
        apply same
      · intro x hx
        obtain rfl := List.mem_singleton.mp hx
        apply hn
      · intro j u hu
        rcases others j u hu with rfl | ⟨hu, hne⟩
        · right
          right
          exact ⟨v, Settled.last value, fades⟩
        · left
          simpa using ⟨hu, hne⟩
      · intro m op' v' he
        cases he
    · apply silent hc hsilent
      left
      exact ⟨hn, hinges r ⟨_, _, hexec⟩⟩
  · apply silent hc hsilent
    right
    exact ⟨v, settled, fades r ⟨_, _, hexec⟩⟩

/-- An operation returns when it is placed. -/
theorem ret (h : M.Tracked V s cfg) {i : Client} {n : ℕ} {op : Op} {v : Val}
    (run : cfg.threads i = some ⟨n, op, .ret v⟩) :
  M.Tracked V s (cfg.returned i ⟨n, op, .ret v⟩ v)
  := by
  apply h.extend (e := .ret n op v) (l := []) rfl rfl
  · rw [List.append_nil]
    apply h.same
  · intro x hx
    cases hx
  · intro j u hu
    left
    rcases of_update_eq_some hu with ⟨-, hu⟩ | ⟨-, hu⟩
    · cases hu
    · simpa using hu
  · intro m op' v' he
    obtain ⟨rfl, rfl, rfl⟩ := Event.ret.inj he
    rw [List.append_nil]
    rcases h.running i _ run with ⟨-, hinges⟩ | ⟨v', settled, fades⟩
    · cases hinges
    · use settled.1
      intro hop
      rw [fades hop]
      apply settled.2 hop

/-- Every configuration reached from a state that looks the same as itself is tracked. -/
theorem of_reaches [IsEmpty Env]
    {P : Config Client C R σ Op Val → Turn Client Op Env → Prop} (faithful : M.Faithful V)
    (refl : V.Same s s) (h : M.Reaches P (Config.init s) cfg) :
  M.Tracked V s cfg
  := by
  have key : Sound cfg ∧ M.Tracked V s cfg := by
    apply h.invariant fun cfg => Sound cfg ∧ M.Tracked V s cfg
    case start => exact ⟨Sound.init s, Tracked.init refl⟩
    case keep =>
      rintro cfg l cfg' ⟨sound, ih⟩ _ hs
      use sound.step hs
      cases hs with
      | call _ => apply ih.called sound faithful
      | act run hexec => apply ih.acted sound run hexec
      | ret run => apply ih.ret run
      | env _ => exact isEmptyElim (α := Env) ‹Env›
  apply key.2

end Tracked

/-- In a concurrent run the operations of a faithful view have a sequential order, in which
those that are observed return what they return in the run, and which ends in a state that
looks as the one of the run does. -/
theorem linearizes_of_faithful [DecidableEq Client] [IsEmpty Env]
    {P : Config Client C R σ Op Val → Turn Client Op Env → Prop}
    {cfg : Config Client C R σ Op Val} (faithful : M.Faithful V) (refl : V.Same s s)
    (h : M.Reaches P (Config.init s) cfg) :
  ∃ order, Linearizes cfg.history order ∧
    (∀ n op v, .ret n op v ∈ cfg.history → V.Observed op →
      (n, v) ∈ outcomes V.spec order s) ∧
    V.Same (final V.spec order s) cfg.shared
  := by
  have tracked := Tracked.of_reaches faithful refl h
  use V.order cfg.history, V.linearizes h tracked.nodup fun n op v hv =>
    (tracked.returned n op v hv).1
  exact ⟨fun n op v hv => (tracked.returned n op v hv).2, tracked.same⟩

end Machine

end Atomic
