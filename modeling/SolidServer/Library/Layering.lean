import SolidServer.Library.Linearization

/-!
# Clients of a concurrent object

The commands of a program can be calls of an object, which runs a program of its own for each of
them.  `layeredMachine` lets clients run such programs concurrently with every step of the object
a step of its own, so that the steps of one call of the object come between those of another.

If every operation of the object takes effect with the last command of its program, and returns
what it returns when the operations are executed in the order of these commands, nobody notices:
the calls and the returns of every run are those of a run of a machine that executes the commands
at once, in the same order and with the same values (`layered_refines`).
-/

namespace Atomic

variable {Client C D : Type} {R : C → Type} {S : D → Type} {σ τ κ ρ Op Val LOp LVal Env : Type}

/-! ### Programs that take effect at the end -/

/-- Whatever the answers are, the last command of the program is a point, and no other is. -/
def Prog.EndsAt (point : C → Bool) : Prog C R Val → Prop
  | .ret _ => False
  | .act c next =>
      if point c then ∀ r, ∃ v, next r = .ret v else ∀ r, (next r).EndsAt point

namespace Prog.EndsAt

variable {point : C → Bool} {p : Prog C R Val}

theorem onePoint (h : p.EndsAt point) :
  p.OnePoint point
  := by
  induction p with
  | ret v => apply h
  | act c next ih =>
      rw [EndsAt] at h
      rw [OnePoint]
      split at h
      · rw [if_pos ‹_›]
        intro r
        obtain ⟨v, hv⟩ := h r
        rw [hv]
        trivial
      · rw [if_neg ‹_›]
        intro r
        apply ih r (h r)

theorem exists_act (h : p.EndsAt point) :
  ∃ c next, p = .act c next
  := by
  cases p with
  | ret v => cases h
  | act c next => use c, next

/-- Changing what is returned changes nothing before. -/
theorem of_bind_ret {f : Val → LVal} (h : (p >>= fun v => .ret (f v)).EndsAt point) :
  p.EndsAt point
  := by
  induction p with
  | ret v => apply h
  | act c next ih =>
      rw [act_bind, EndsAt] at h
      rw [EndsAt]
      split at h
      · rw [if_pos ‹_›]
        intro r
        obtain ⟨v, hv⟩ := h r
        cases hr : next r with
        | ret v' => use v'
        | act c' next' =>
            rw [hr] at hv
            cases hv
      · rw [if_neg ‹_›]
        intro r
        apply ih r (h r)

end Prog.EndsAt

/-! ### Machines over an object -/

/-- How a command is answered: by calling an operation of the object, which runs `p` and returns
the answer wrapped; or at once, from the state beside the object. -/
inductive Serving (D : Type) (S : D → Type) (LOp LVal κ A : Type) where
  | object (op : LOp) (p : Prog D S A) (wrap : A → LVal)
  | beside (exec : κ → A × κ)

/-- The commands of clients of an object: those of the object, and those that are answered from
beside it. -/
inductive LayerCmd (C D : Type) where
  | object (d : D)
  | beside (c : C)

namespace LayerCmd

/-- The answers to the commands. -/
@[reducible] def Answer (R : C → Type) (S : D → Type) : LayerCmd C D → Type
  | object d => S d
  | beside c => R c

variable (serve : (c : C) → Serving D S LOp LVal κ (R c))

/-- The effect of a command. -/
def exec (L : Machine D S τ LOp LVal Empty) :
    (c : LayerCmd C D) → τ × κ → Option (c.Answer R S × (τ × κ))
  | object d, s => (L.exec d s.1).map fun e => (e.1, (e.2, s.2))
  | beside c, s =>
      match serve c with
      | .object _ _ _ => none
      | .beside exec => some ((exec s.2).1, (s.1, (exec s.2).2))

end LayerCmd

/-- A program of the object in that of a client. -/
def Prog.inObject {A : Type} (p : Prog D S A) : Prog (LayerCmd C D) (LayerCmd.Answer R S) A :=
  p.translate fun d => .call (.object d)

section

variable (serve : (c : C) → Serving D S LOp LVal κ (R c))

/-- What a client does for a command. -/
def served (c : C) : Prog (LayerCmd C D) (LayerCmd.Answer R S) (R c) :=
  match serve c with
  | .object _ p _ => p.inObject
  | .beside _ => Prog.call (LayerCmd.beside c)

/-- Clients running operations, whose commands are answered by the object or from beside it. -/
def layeredMachine (impl : Op → Prog C R Val) (L : Machine D S τ LOp LVal Empty)
    (env : Env → κ → Option κ) :
    Machine (LayerCmd C D) (LayerCmd.Answer R S) (τ × κ) Op Val Env where
  impl op := (impl op).translate (served serve)
  exec := LayerCmd.exec serve L
  env e s := (env e s.2).map fun k => (s.1, k)

/-- What an object is for, and what the machine `M` does at once, are the same: a command that is
a call of the object has the answer and the effect of the operation, by `spec`, and one answered
from beside it has those that are found there.  `same` relates what the object stands for and the
state beside it to a state of `M`; only commands that satisfy `P` are considered. -/
structure Realizes (M : Machine C R ρ Op Val Env) (L : Machine D S τ LOp LVal Empty)
    (env : Env → κ → Option κ) (spec : LOp → σ → LVal × σ) (P : C → Prop)
    (same : σ → κ → ρ → Prop) : Prop where
  calls : ∀ c op p wrap, serve c = .object op p wrap →
    (L.impl op = p >>= fun a => .ret (wrap a)) ∧ Function.Injective wrap
  object : ∀ c op p wrap s k w, serve c = .object op p wrap → P c → same s k w →
    ∃ r w', M.exec c w = some (r, w') ∧ (spec op s).1 = wrap r ∧ same (spec op s).2 k w'
  beside : ∀ c exec s k w, serve c = .beside exec → P c → same s k w →
    ∃ w', M.exec c w = some ((exec k).1, w') ∧ same s (exec k).2 w'
  env : ∀ e s k k' w, env e k = some k' → same s k w → ∃ w', M.env e w = some w' ∧ same s k' w'

/-- The operations of the object take effect at the ends of their programs: they return what they
return in the order of these. -/
structure EffectiveAtEnd (Client : Type) [DecidableEq Client] (L : Machine D S τ LOp LVal Empty)
    (point : D → Bool) (spec : LOp → σ → LVal × σ) (t₀ : τ) (s₀ : σ) : Prop where
  ends : ∀ op, (L.impl op).EndsAt point
  returns : ∀ cfg : Config Client D S τ LOp LVal, L.Reachable (Config.init t₀) cfg →
    ∀ n op v, .ret n op v ∈ cfg.history →
      (n, v) ∈ outcomes spec (cfg.history.filterMap (Event.pointed point)) s₀

end

/-! ### What clients see -/

/-- What clients see: the calls and the returns. -/
inductive Observed (Client Op Val : Type) where
  | call (client : Client) (ticket : ℕ) (op : Op)
  | ret (ticket : ℕ) (op : Op) (value : Val)

/-- What clients see of an event. -/
def Event.observed : Event Client C R Op Val → Option (Observed Client Op Val)
  | .call i n op => some (.call i n op)
  | .act _ _ _ _ => none
  | .ret n op v => some (.ret n op v)

/-- What clients see of a history. -/
def observed (history : List (Event Client C R Op Val)) : List (Observed Client Op Val) :=
  history.filterMap Event.observed

theorem observed_concat (history : List (Event Client C R Op Val)) (e : Event Client C R Op Val) :
  observed (history ++ [e]) = observed history ++ e.observed.toList
  := by
  rw [observed, List.filterMap_append, List.filterMap_cons]
  cases e.observed <;> rfl

theorem mem_observed_iff {history : List (Event Client C R Op Val)} {n : ℕ} {op : Op} {v : Val} :
  .ret n op v ∈ observed history ↔ .ret n op v ∈ history
  := by
  constructor
  · intro h
    obtain ⟨e, he, hret⟩ := List.mem_filterMap.mp h
    cases e with
    | call | act => cases hret
    | ret n' op' v' =>
        obtain ⟨rfl, rfl, rfl⟩ := Observed.ret.inj (Option.some.inj hret)
        apply he
  · intro h
    apply List.mem_filterMap.mpr
    use .ret n op v, h
    rfl

/-! ### Runs over the object and runs without -/

section

variable (serve : (c : C) → Serving D S LOp LVal κ (R c)) (point : D → Bool) (P : C → Prop)

/-- The thread of a client over the object, that of its call of the object, and that of the client
when commands are executed at once: the client is between two commands, or its next command is a
call of the object that has not taken effect. -/
inductive Threads :
    Option (Thread (LayerCmd C D) (LayerCmd.Answer R S) Op Val) →
      Option (Thread D S LOp LVal) → Option (Thread C R Op Val) → Prop where
  | idle : Threads none none none
  | between {t p} (rest : t.rest = p.translate (served serve)) (issues : p.Issues P) :
      Threads (some t) none (some ⟨t.ticket, t.op, p⟩)
  | within {t u c next p wrap q} (hserve : serve c = .object u.op p wrap)
      (rest : t.rest = q.inObject >>= fun r => (next r).translate (served serve))
      (call : u.rest = q >>= fun r => .ret (wrap r)) (ends : q.EndsAt point)
      (issues : (Prog.act c next).Issues P) :
      Threads (some t) (some u) (some ⟨t.ticket, t.op, .act c next⟩)

/-- A configuration over the object, that of the object, and one in which commands are executed at
once. -/
structure Layered (spec : LOp → σ → LVal × σ) (same : σ → κ → ρ → Prop) (s₀ : σ)
    (x : Config Client (LayerCmd C D) (LayerCmd.Answer R S) (τ × κ) Op Val)
    (y : Config Client D S τ LOp LVal) (z : Config Client C R ρ Op Val) : Prop where
  shared : x.shared.1 = y.shared
  same : same (final spec (y.history.filterMap (Event.pointed point)) s₀) x.shared.2 z.shared
  threads : ∀ i, Threads serve point P (x.threads i) (y.threads i) (z.threads i)
  tickets : z.tickets = x.tickets
  observed : observed z.history = observed x.history

end

section

variable {serve : (c : C) → Serving D S LOp LVal κ (R c)} {M : Machine C R ρ Op Val Env}
  {L : Machine D S τ LOp LVal Empty} {env : Env → κ → Option κ} {point : D → Bool}
  {spec : LOp → σ → LVal × σ} {P : C → Prop} {same : σ → κ → ρ → Prop} {t₀ : τ} {s₀ : σ}
  {Client : Type} [DecidableEq Client]

theorem Threads.update
    {x : Client → Option (Thread (LayerCmd C D) (LayerCmd.Answer R S) Op Val)}
    {y : Client → Option (Thread D S LOp LVal)} {z : Client → Option (Thread C R Op Val)}
    (h : ∀ j, Threads serve point P (x j) (y j) (z j)) {i : Client}
    {t : Option (Thread (LayerCmd C D) (LayerCmd.Answer R S) Op Val)}
    {u : Option (Thread D S LOp LVal)} {v : Option (Thread C R Op Val)}
    (hi : Threads serve point P t u v) (j : Client) :
  Threads serve point P (Function.update x i t j) (Function.update y i u j)
    (Function.update z i v j)
  := by
  by_cases hji : j = i
  · subst hji
    simpa only [Function.update_self] using hi
  · simpa only [Function.update_of_ne hji] using h j

/-- What a client does for a command is not nothing. -/
theorem exists_served (realizes : Realizes serve M L env spec P same)
    (effective : EffectiveAtEnd Client L point spec t₀ s₀) (c : C) :
  ∃ d next, served serve c = .act d next
  := by
  rw [served]
  split
  case h_1 op p wrap hserve =>
    have ends := effective.ends op
    rw [(realizes.calls c op p wrap hserve).1] at ends
    obtain ⟨d, next, rfl⟩ := ends.of_bind_ret.exists_act
    exact ⟨_, _, rfl⟩
  case h_2 exec hserve => exact ⟨_, _, rfl⟩

namespace Layered

variable {x : Config Client (LayerCmd C D) (LayerCmd.Answer R S) (τ × κ) Op Val}
  {y : Config Client D S τ LOp LVal} {z : Config Client C R ρ Op Val}

theorem called (h : Layered serve point P spec same s₀ x y z) {i : Client} (op : Op)
    (idle : x.threads i = none) (issues : (M.impl op).Issues P) :
  z.threads i = none ∧
    Layered serve point P spec same s₀
      (x.called i op ((M.impl op).translate (served serve))) y (z.called i op (M.impl op))
  := by
  have ht := h.threads i
  rw [idle] at ht
  generalize hy : y.threads i = u at ht
  generalize hz : z.threads i = v at ht
  cases ht
  refine ⟨rfl, h.shared, h.same, ?threads, congrArg (· + 1) h.tickets, ?observed⟩
  case threads =>
    intro j
    rw [← Function.update_eq_self i y.threads, hy]
    simp only [Config.called, h.tickets]
    apply Threads.update h.threads
    apply Threads.between (t := ⟨x.tickets, op, _⟩) rfl issues
  case observed =>
    simp only [Config.called, observed_concat, h.observed, h.tickets]
    rfl

/-- A program that has returned is that of a client that is between two commands. -/
theorem returned (h : Layered serve point P spec same s₀ x y z)
    (realizes : Realizes serve M L env spec P same)
    (effective : EffectiveAtEnd Client L point spec t₀ s₀) {i : Client} {n : ℕ} {op : Op} {v : Val}
    (run : x.threads i = some ⟨n, op, .ret v⟩) :
  z.threads i = some ⟨n, op, .ret v⟩ ∧
    Layered serve point P spec same s₀ (x.returned i ⟨n, op, .ret v⟩ v) y
      (z.returned i ⟨n, op, .ret v⟩ v)
  := by
  have ht := h.threads i
  rw [run] at ht
  generalize hy : y.threads i = u at ht
  generalize hz : z.threads i = w at ht
  cases ht with
  | @between _ p rest issues =>
      cases p with
      | act c next =>
          obtain ⟨d, next', hserved⟩ := exists_served realizes effective c
          rw [Prog.translate, hserved] at rest
          cases rest
      | ret v' =>
          obtain rfl := Prog.ret.inj rest
          refine ⟨rfl, h.shared, h.same, ?threads, h.tickets, ?observed⟩
          case threads =>
            intro j
            rw [← Function.update_eq_self i y.threads, hy]
            apply Threads.update h.threads .idle
          case observed =>
            simp only [Config.returned, observed_concat, h.observed]
            rfl
  | within hserve rest call ends issues =>
      obtain ⟨d, next, rfl⟩ := ends.exists_act
      cases rest

omit [DecidableEq Client] in
theorem drifted (h : Layered serve point P spec same s₀ x y z)
    (realizes : Realizes serve M L env spec P same) {e : Env} {k : κ}
    (henv : env e x.shared.2 = some k) :
  ∃ w, M.env e z.shared = some w ∧
    Layered serve point P spec same s₀ (x.drifted (x.shared.1, k)) y (z.drifted w)
  := by
  obtain ⟨w, hw, hsame⟩ := realizes.env e _ _ _ _ henv h.same
  exact ⟨w, hw, h.shared, hsame, h.threads, h.tickets, h.observed⟩

/-- A command that is answered from beside the object is executed at once. -/
theorem beside (h : Layered serve point P spec same s₀ x y z)
    (realizes : Realizes serve M L env spec P same) {i : Client} {n : ℕ} {op : Op} {c : C}
    {next : R c → Prog C R Val} {exec : κ → R c × κ} (hserve : serve c = .beside exec)
    (issues : (Prog.act c next).Issues P)
    {t : Thread (LayerCmd C D) (LayerCmd.Answer R S) Op Val} (ht : t.ticket = n ∧ t.op = op)
    (hy : y.threads i = none) :
  ∃ w, M.exec c z.shared = some ((exec x.shared.2).1, w) ∧
    Layered serve point P spec same s₀
      (x.acted i t (.beside c) (exec x.shared.2).1 (x.shared.1, (exec x.shared.2).2)
        ((next (exec x.shared.2).1).translate (served serve)))
      y (z.acted i ⟨n, op, .act c next⟩ c (exec x.shared.2).1 w (next (exec x.shared.2).1))
  := by
  obtain ⟨rfl, rfl⟩ := ht
  obtain ⟨w, hw, hsame⟩ := realizes.beside c exec _ _ _ hserve issues.1 h.same
  refine ⟨w, hw, h.shared, hsame, ?threads, h.tickets, ?observed⟩
  case threads =>
    intro j
    rw [← Function.update_eq_self i y.threads, hy]
    apply Threads.update h.threads
    apply Threads.between (t := ⟨t.ticket, t.op, _⟩) rfl (issues.2 _)
  case observed =>
    simp only [Config.acted, observed_concat, h.observed]
    rfl

/-- A command of the object is executed.  If it is the point of the operation, that has been
executed at once. -/
theorem inObject (h : Layered serve point P spec same s₀ x y z)
    (realizes : Realizes serve M L env spec P same)
    (effective : EffectiveAtEnd Client L point spec t₀ s₀)
    (reached : L.Reachable (Config.init t₀) y) {i : Client}
    {t : Thread (LayerCmd C D) (LayerCmd.Answer R S) Op Val} {m : ℕ} {lop : LOp} {c : C}
    {next : R c → Prog C R Val} {p : Prog D S (R c)} {wrap : R c → LVal}
    (hserve : serve c = .object lop p wrap) (issues : (Prog.act c next).Issues P) {d : D}
    {q : S d → Prog D S (R c)} (ends : (Prog.act d q).EndsAt point)
    (hy : y.threads i = some ⟨m, lop, .act d fun r => q r >>= fun a => .ret (wrap a)⟩)
    (hz : z.threads i = some ⟨t.ticket, t.op, .act c next⟩) {r : S d} {s : τ}
    (hexec : L.exec d y.shared = some (r, s)) :
  ∃ y' z', L.Reachable (Config.init t₀) y' ∧ (z' = z ∨ M.Step z (.act i) z') ∧
    Layered serve point P spec same s₀
      (x.acted i t (.object d) r (s, x.shared.2)
        ((q r).inObject >>= fun a => (next a).translate (served serve))) y' z'
  := by
  have reached₁ := reached.step trivial (.act hy hexec)
  rw [Prog.EndsAt] at ends
  split at ends
  case isFalse hpoint =>
    refine ⟨_, z, reached₁, .inl rfl, rfl, ?same, ?threads, h.tickets, ?observed⟩
    case same =>
      simp only [Config.acted, List.filterMap_append, List.filterMap_cons, List.filterMap_nil,
        Event.pointed, if_neg hpoint, List.append_nil]
      apply h.same
    case threads =>
      intro j
      rw [← Function.update_eq_self i z.threads, hz]
      apply Threads.update h.threads
      apply Threads.within (t := ⟨t.ticket, t.op, _⟩) (u := ⟨m, lop, _⟩) hserve rfl rfl (ends r)
        issues
    case observed =>
      simp only [Config.acted, observed_concat, h.observed]
      simp [Event.observed]
  case isTrue hpoint =>
    obtain ⟨a, ha⟩ := ends r
    have hy₁ : (y.acted i ⟨m, lop, .act d fun r => q r >>= fun a => .ret (wrap a)⟩ d r s
        (q r >>= fun a => .ret (wrap a))).threads i = some ⟨m, lop, .ret (wrap a)⟩ := by
      rw [ha]
      apply Function.update_self
    have reached₂ := reached₁.step trivial (.ret hy₁)
    have order : ((y.acted i ⟨m, lop, .act d fun r => q r >>= fun a => .ret (wrap a)⟩ d r s
        (q r >>= fun a => .ret (wrap a))).returned i ⟨m, lop, .ret (wrap a)⟩
          (wrap a)).history.filterMap (Event.pointed point)
        = y.history.filterMap (Event.pointed point) ++ [(m, lop)] := by
      simp [Config.acted, Config.returned, List.filterMap_append, Event.pointed, hpoint]
    have returns := effective.returns _ reached₂ m lop (wrap a)
      (List.mem_append_right _ (List.mem_singleton_self _))
    have nodup := (linearizes_of_onePoint reached₂ fun op => (effective.ends op).onePoint).nodup
    rw [order] at returns nodup
    obtain ⟨a', w, hw, hspec, hsame⟩ := realizes.object c lop p wrap _ _ _ hserve issues.1 h.same
    -- the operation returns what it returns when executed at once
    obtain rfl : a = a' := by
      apply (realizes.calls c lop p wrap hserve).2
      rw [← hspec]
      apply eq_of_mem_outcomes spec nodup returns
    refine ⟨_, _, reached₂, .inr (.act hz hw), rfl, ?same, ?threads, h.tickets, ?observed⟩
    case same =>
      rw [order, final_append]
      apply hsame
    case threads =>
      intro j
      simp only [Config.acted, Config.returned, Function.update_idem, ha]
      apply Threads.update h.threads
      apply Threads.between (t := ⟨t.ticket, t.op, _⟩) rfl (issues.2 a)
    case observed =>
      simp only [Config.acted, observed_concat, h.observed]
      simp [Event.observed]

/-- The client whose next command is a call of the object calls it. -/
theorem entered (h : Layered serve point P spec same s₀ x y z) {i : Client}
    {t : Thread (LayerCmd C D) (LayerCmd.Answer R S) Op Val} {lop : LOp} {c : C}
    {next : R c → Prog C R Val} {p : Prog D S (R c)} {wrap : R c → LVal}
    (hserve : serve c = .object lop p wrap) (issues : (Prog.act c next).Issues P)
    (call : L.impl lop = p >>= fun a => .ret (wrap a)) (ends : p.EndsAt point)
    (rest : t.rest = p.inObject >>= fun a => (next a).translate (served serve))
    (hx : x.threads i = some t) (hz : z.threads i = some ⟨t.ticket, t.op, .act c next⟩) :
  Layered serve point P spec same s₀ x (y.called i lop (L.impl lop)) z
  := by
  refine ⟨h.shared, ?same, ?threads, h.tickets, h.observed⟩
  case same =>
    simp only [Config.called, List.filterMap_append, List.filterMap_cons, List.filterMap_nil,
      Event.pointed, List.append_nil]
    apply h.same
  case threads =>
    intro j
    rw [← Function.update_eq_self i x.threads, hx, ← Function.update_eq_self i z.threads, hz]
    apply Threads.update h.threads
    apply Threads.within (u := ⟨y.tickets, lop, L.impl lop⟩) hserve rest call ends issues

/-- A client issues its next command. -/
theorem acted (h : Layered serve point P spec same s₀ x y z)
    (realizes : Realizes serve M L env spec P same)
    (effective : EffectiveAtEnd Client L point spec t₀ s₀)
    (reached : L.Reachable (Config.init t₀) y) {i : Client} {n : ℕ} {op : Op} {c : LayerCmd C D}
    {next : c.Answer R S → Prog (LayerCmd C D) (LayerCmd.Answer R S) Val}
    (run : x.threads i = some ⟨n, op, .act c next⟩) {r : c.Answer R S} {s : τ × κ}
    (hexec : LayerCmd.exec serve L c x.shared = some (r, s)) :
  ∃ y' z', L.Reachable (Config.init t₀) y' ∧ (z' = z ∨ M.Step z (.act i) z') ∧
    Layered serve point P spec same s₀ (x.acted i ⟨n, op, .act c next⟩ c r s (next r)) y' z'
  := by
  have ht := h.threads i
  rw [run] at ht
  generalize hy : y.threads i = u at ht
  generalize hz : z.threads i = v at ht
  cases ht with
  | @between _ p rest issues =>
      cases p with
      | ret v => cases rest
      | act c' next' =>
          rw [Prog.translate] at rest
          cases hserve : serve c' with
          | object lop p wrap =>
              -- the object is called, and the first command of the call is executed
              have call := (realizes.calls c' lop p wrap hserve).1
              have ends := (call ▸ effective.ends lop).of_bind_ret
              have entered := h.entered hserve issues call ends
                (by rw [rest, served, hserve]) run hz
              obtain ⟨d, q, rfl⟩ := ends.exists_act
              rw [served, hserve] at rest
              obtain ⟨rfl, hnext⟩ := Prog.act.inj rest
              obtain rfl := eq_of_heq hnext
              obtain ⟨⟨r', s'⟩, hexec', heq⟩ := Option.map_eq_some_iff.mp hexec
              obtain ⟨rfl, rfl⟩ := Prod.mk.inj heq
              rw [h.shared] at hexec'
              have hy' : (y.called i lop (L.impl lop)).threads i
                  = some ⟨y.tickets, lop, .act d fun r => q r >>= fun a => .ret (wrap a)⟩ := by
                rw [call]
                apply Function.update_self
              apply entered.inObject realizes effective (reached.step trivial (.call hy)) hserve
                issues ends hy' hz hexec'
          | beside exec =>
              rw [served, hserve] at rest
              obtain ⟨rfl, hnext⟩ := Prog.act.inj rest
              obtain rfl := eq_of_heq hnext
              simp only [LayerCmd.exec, hserve] at hexec
              obtain ⟨rfl, rfl⟩ := Prod.mk.inj (Option.some.inj hexec)
              obtain ⟨w, hw, layered⟩ := h.beside realizes hserve issues
                (t := ⟨n, op, _⟩) ⟨rfl, rfl⟩ hy
              exact ⟨y, _, reached, .inr (.act hz hw), layered⟩
  | @within _ u c' next' p wrap q hserve rest call ends issues =>
      obtain ⟨d, q, rfl⟩ := ends.exists_act
      obtain ⟨rfl, hnext⟩ := Prog.act.inj rest
      obtain rfl := eq_of_heq hnext
      obtain ⟨⟨r', s'⟩, hexec', heq⟩ := Option.map_eq_some_iff.mp hexec
      obtain ⟨rfl, rfl⟩ := Prod.mk.inj heq
      rw [h.shared] at hexec'
      obtain ⟨m, lop, rest'⟩ := u
      obtain rfl : rest' = _ := call
      apply h.inObject realizes effective reached hserve issues ends hy hz hexec'

omit [DecidableEq Client] in
/-- The object is not called when no operation of a client is in progress. -/
theorem quiescent (h : Layered serve point P spec same s₀ x y z) (hx : x.Quiescent) :
  y.Quiescent
  := by
  intro i
  have ht := h.threads i
  rw [hx i] at ht
  generalize y.threads i = u at ht
  generalize z.threads i = v at ht
  cases ht
  rfl

end Layered

/-- Clients of an object whose operations take effect at the ends of their programs see what they
would if the operations were executed at once. -/
theorem layered_refines (realizes : Realizes serve M L env spec P same)
    (effective : EffectiveAtEnd Client L point spec t₀ s₀) {k₀ : κ} {w₀ : ρ}
    (start : same s₀ k₀ w₀) {Q : Turn Client Op Env → Prop}
    (issues : ∀ i op, Q (.call i op) → (M.impl op).Issues P)
    {x : Config Client (LayerCmd C D) (LayerCmd.Answer R S) (τ × κ) Op Val}
    (h : (layeredMachine serve M.impl L env).Reaches (fun _ l => Q l) (Config.init (t₀, k₀)) x) :
  ∃ y z, L.Reachable (Config.init t₀) y ∧ M.Reaches (fun _ l => Q l) (Config.init w₀) z ∧
    Layered serve point P spec same s₀ x y z
  := by
  apply h.invariant fun x => ∃ y z, L.Reachable (Config.init t₀) y ∧
    M.Reaches (fun _ l => Q l) (Config.init w₀) z ∧ Layered serve point P spec same s₀ x y z
  case start => exact ⟨_, _, .refl, .refl, rfl, start, fun _ => .idle, rfl, rfl⟩
  case keep =>
    rintro x l x' ⟨y, z, hy, hz, layered⟩ allowed hs
    cases hs with
    | @call i op idle =>
        obtain ⟨idle', layered'⟩ := layered.called op idle (issues i op allowed)
        exact ⟨y, _, hy, hz.step allowed (.call idle'), layered'⟩
    | ret run =>
        obtain ⟨run', layered'⟩ := layered.returned realizes effective run
        exact ⟨y, _, hy, hz.step allowed (.ret run'), layered'⟩
    | env hexec =>
        obtain ⟨k, hk, rfl⟩ := Option.map_eq_some_iff.mp hexec
        obtain ⟨w, hw, layered'⟩ := layered.drifted realizes hk
        exact ⟨y, _, hy, hz.step allowed (.env hw), layered'⟩
    | act run hexec =>
        obtain ⟨y', z', hy', rfl | hstep, layered'⟩ :=
          layered.acted realizes effective hy run hexec
        · exact ⟨y', _, hy', hz, layered'⟩
        · exact ⟨y', z', hy', hz.step allowed hstep, layered'⟩

end

end Atomic
