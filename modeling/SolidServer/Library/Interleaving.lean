import SolidServer.Library.Program

/-!
# Interleavings of programs

A `Machine` gives every operation a program of atomic commands, executes the commands on
a shared state, and lets an environment change that state.  A configuration holds the
shared state, the thread every client is running, and the history of what happened so far.
A step lets one client call an operation, lets one running thread issue its next command or
return, or lets the environment act, so that the configurations reached from
`Config.init s` are those of all interleavings of any number of clients.

`Machine.Reaches M P c c'` says that `c'` is reached from `c` by steps which all satisfy `P`
in the configuration they are taken in.  Configurations reached from `Config.init s` are
`Sound`: the events of an operation come in the order call, commands, return.
-/

namespace Atomic

/-- `x` occurs before `y` in the list `l`. -/
def Before {α : Type} (l : List α) (x y : α) : Prop :=
  ∃ l₁ l₂, l = l₁ ++ l₂ ∧ x ∈ l₁ ∧ y ∈ l₂

namespace Before

variable {α β : Type} {l l' : List α} {x y : α}

theorem left_mem (h : Before l x y) :
  x ∈ l
  := by
  obtain ⟨l₁, l₂, rfl, hx, -⟩ := h
  apply List.mem_append_left _ hx

theorem append (h : Before l x y) (l' : List α) :
  Before (l ++ l') x y
  := by
  obtain ⟨l₁, l₂, rfl, hx, hy⟩ := h
  use l₁, l₂ ++ l', List.append_assoc .., hx
  apply List.mem_append_left _ hy

theorem concat (hx : x ∈ l) (y : α) :
  Before (l ++ [y]) x y
  := by
  use l, [y], rfl, hx
  apply List.mem_singleton_self

/-- In a list extended by `z`, either `x` was before `y` already or `y` is the new `z`. -/
theorem of_concat {z : α} (h : Before (l ++ [z]) x y) :
  Before l x y ∨ (x ∈ l ∧ y = z)
  := by
  obtain ⟨l₁, l₂, hl, hx, hy⟩ := h
  rcases List.eq_nil_or_concat l₂ with rfl | ⟨l₂, w, rfl⟩
  · cases hy
  · rw [List.concat_eq_append, ← List.append_assoc] at hl
    obtain ⟨rfl, hw⟩ := List.append_inj' hl rfl
    obtain rfl := List.singleton_injective hw
    rw [List.concat_eq_append] at hy
    rcases List.mem_append.mp hy with hy | hy
    · left
      use l₁, l₂
    · right
      use List.mem_append_left _ hx, List.mem_singleton.mp hy

theorem nil_iff :
  Before [] x y ↔ False
  := by
  constructor
  · rintro ⟨l₁, l₂, hl, hx, -⟩
    obtain ⟨rfl, -⟩ := List.append_eq_nil_iff.mp hl.symm
    cases hx
  · apply False.elim

theorem cons_iff {z : α} :
  Before (z :: l) x y ↔ (x = z ∧ y ∈ l) ∨ Before l x y
  := by
  constructor
  · rintro ⟨l₁, l₂, hl, hx, hy⟩
    cases l₁ with
    | nil => cases hx
    | cons w l₁ =>
        obtain ⟨rfl, rfl⟩ := List.cons.inj hl
        rcases List.mem_cons.mp hx with rfl | hx
        · left
          use rfl
          apply List.mem_append_right _ hy
        · right
          exact ⟨l₁, l₂, rfl, hx, hy⟩
  · rintro (⟨rfl, hy⟩ | ⟨l₁, l₂, rfl, hx, hy⟩)
    · use [x], l, rfl, List.mem_singleton_self x
    · use z :: l₁, l₂, rfl, List.mem_cons_of_mem _ hx

instance decidable [DecidableEq α] (x y : α) : (l : List α) → Decidable (Before l x y)
  | [] => decidable_of_iff False nil_iff.symm
  | z :: l =>
      have := decidable x y l
      decidable_of_iff ((x = z ∧ y ∈ l) ∨ Before l x y) cons_iff.symm

theorem filterMap (h : Before l x y) {f : α → Option β} {a b : β}
    (hx : f x = some a) (hy : f y = some b) :
  Before (l.filterMap f) a b
  := by
  obtain ⟨l₁, l₂, rfl, hxl, hyl⟩ := h
  use l₁.filterMap f, l₂.filterMap f, List.filterMap_append
  constructor
  · apply List.mem_filterMap.mpr
    use x
  · apply List.mem_filterMap.mpr
    use y

theorem right_mem (h : Before l x y) :
  y ∈ l
  := by
  obtain ⟨l₁, l₂, rfl, -, hy⟩ := h
  apply List.mem_append_right _ hy

/-- In a list without repetitions two elements come in one order only. -/
theorem asymm (h : Before l x y) (nodup : l.Nodup) :
  ¬ Before l y x
  := by
  rintro ⟨m₁, m₂, hm, hy', hx'⟩
  obtain ⟨l₁, l₂, rfl, hx, hy⟩ := h
  obtain ⟨-, -, disjoint⟩ := List.nodup_append.mp nodup
  rcases List.append_eq_append_iff.mp hm with ⟨l, -, rfl⟩ | ⟨l, rfl, -⟩
  · apply disjoint x hx x (List.mem_append_right _ hx') rfl
  · apply disjoint y (List.mem_append_left _ hy') y hy rfl

end Before

/-- An element of a list extended by `y` is `y`, or was there before. -/
theorem append_cons_eq_concat {α : Type} {l l₁ l₂ : List α} {x y : α}
    (h : l ++ [y] = l₁ ++ x :: l₂) :
  (l₁ = l ∧ x = y ∧ l₂ = []) ∨ ∃ l₃, l = l₁ ++ x :: l₃ ∧ l₂ = l₃ ++ [y]
  := by
  rcases List.eq_nil_or_concat l₂ with rfl | ⟨l₃, z, rfl⟩
  · obtain ⟨rfl, hx⟩ := List.append_inj' h rfl
    exact .inl ⟨rfl, (List.singleton_injective hx).symm, rfl⟩
  · rw [List.concat_eq_append, ← List.cons_append, ← List.append_assoc] at h
    obtain ⟨rfl, hy⟩ := List.append_inj' h rfl
    obtain rfl := List.singleton_injective hy
    exact .inr ⟨l₃, rfl, List.concat_eq_append⟩

/-- A value of a partial function changed at `i` is the new one, or was there before. -/
theorem of_update_eq_some {α β : Type} [DecidableEq α] {f : α → Option β} {i j : α}
    {b : Option β} {t : β} (h : Function.update f i b j = some t) :
  (j = i ∧ b = some t) ∨ (j ≠ i ∧ f j = some t)
  := by
  by_cases hji : j = i
  · subst hji
    rw [Function.update_self] at h
    exact .inl ⟨rfl, h⟩
  · rw [Function.update_of_ne hji] at h
    exact .inr ⟨hji, h⟩

theorem exists_update_iff {α β : Type} [DecidableEq α] {f : α → Option β} {i : α}
    {b : Option β} {t : β} :
  (∃ j, Function.update f i b j = some t) ↔ b = some t ∨ ∃ j, j ≠ i ∧ f j = some t
  := by
  constructor
  · rintro ⟨j, hj⟩
    rcases of_update_eq_some hj with ⟨-, hb⟩ | ⟨hji, hf⟩
    · exact .inl hb
    · exact .inr ⟨j, hji, hf⟩
  · rintro (hb | ⟨j, hji, hf⟩)
    · use i
      rw [Function.update_self, hb]
    · use j
      rw [Function.update_of_ne hji, hf]

/-! ### Machines and configurations -/

/-- Operations `Op` returning `Val`, given by programs over the commands `C`, which act on
a state `σ`; a command without an execution is blocked.  `env e` is the effect of the
environment action `e`, where it is possible. -/
structure Machine (C : Type) (R : C → Type) (σ Op Val Env : Type) where
  impl : Op → Prog C R Val
  exec : (c : C) → σ → Option (R c × σ)
  env : Env → σ → Option σ

/-- An operation in progress: its ticket, and what is left of its program. -/
structure Thread (C : Type) (R : C → Type) (Op Val : Type) where
  ticket : ℕ
  op : Op
  rest : Prog C R Val

/-- What happened: a client called an operation and got a ticket, the operation with a
ticket issued a command and got an answer, or it returned a value. -/
inductive Event (Client C : Type) (R : C → Type) (Op Val : Type) where
  | call (client : Client) (ticket : ℕ) (op : Op)
  | act (ticket : ℕ) (op : Op) (c : C) (answer : R c)
  | ret (ticket : ℕ) (op : Op) (value : Val)

/-- The shared state, the operation every client is running, the next ticket, and the
events so far in the order they happened. -/
structure Config (Client C : Type) (R : C → Type) (σ Op Val : Type) where
  shared : σ
  threads : Client → Option (Thread C R Op Val)
  tickets : ℕ
  history : List (Event Client C R Op Val)

/-- Whose turn it is: a client calls an operation, issues its next command or returns, or
the environment acts. -/
inductive Turn (Client Op Env : Type) where
  | call (client : Client) (op : Op)
  | act (client : Client)
  | ret (client : Client)
  | env (e : Env)

variable {Client C : Type} {R : C → Type} {σ Op Val Env : Type}

namespace Event

/-- The ticket of the operation an event belongs to. -/
def ticket : Event Client C R Op Val → ℕ
  | .call _ n _ | .act n _ _ _ | .ret n _ _ => n

/-- The operation an event belongs to. -/
def op : Event Client C R Op Val → Op
  | .call _ _ op | .act _ op _ _ | .ret _ op _ => op

/-- The event is a call. -/
def IsCall : Event Client C R Op Val → Prop
  | .call .. => True
  | _ => False

/-- The event is a return. -/
def IsRet : Event Client C R Op Val → Prop
  | .ret .. => True
  | _ => False

section

variable (i : Client) (n : ℕ) (o : Op) (c : C) (r : R c) (v : Val)

@[simp] theorem ticket_call : (.call i n o : Event Client C R Op Val).ticket = n := rfl
@[simp] theorem ticket_act : (.act n o c r : Event Client C R Op Val).ticket = n := rfl
@[simp] theorem ticket_ret : (.ret n o v : Event Client C R Op Val).ticket = n := rfl
@[simp] theorem op_call : (.call i n o : Event Client C R Op Val).op = o := rfl
@[simp] theorem op_act : (.act n o c r : Event Client C R Op Val).op = o := rfl
@[simp] theorem op_ret : (.ret n o v : Event Client C R Op Val).op = o := rfl
@[simp] theorem isCall_call : (.call i n o : Event Client C R Op Val).IsCall := trivial
@[simp] theorem isCall_act : ¬ (.act n o c r : Event Client C R Op Val).IsCall := id
@[simp] theorem isCall_ret : ¬ (.ret n o v : Event Client C R Op Val).IsCall := id
@[simp] theorem isRet_call : ¬ (.call i n o : Event Client C R Op Val).IsRet := id
@[simp] theorem isRet_act : ¬ (.act n o c r : Event Client C R Op Val).IsRet := id
@[simp] theorem isRet_ret : (.ret n o v : Event Client C R Op Val).IsRet := trivial

end

end Event

namespace Config

/-- Nothing is running and nothing has happened. -/
def init (s : σ) : Config Client C R σ Op Val :=
  ⟨s, fun _ => none, 0, []⟩

/-- The command every client issues next. -/
def next? (cfg : Config Client C R σ Op Val) (i : Client) : Option C :=
  (cfg.threads i).bind fun t => t.rest.head?

/-- No operation is in progress. -/
def Quiescent (cfg : Config Client C R σ Op Val) : Prop :=
  ∀ i, cfg.threads i = none

theorem Quiescent.next?_eq_none {cfg : Config Client C R σ Op Val} (h : cfg.Quiescent)
    (i : Client) :
  cfg.next? i = none
  := by
  rw [next?, h i]
  rfl

variable [DecidableEq Client]

/-- Client `i` has called `op`, to be run by `p`. -/
def called (cfg : Config Client C R σ Op Val) (i : Client) (op : Op) (p : Prog C R Val) :
    Config Client C R σ Op Val where
  shared := cfg.shared
  threads := Function.update cfg.threads i (some ⟨cfg.tickets, op, p⟩)
  tickets := cfg.tickets + 1
  history := cfg.history ++ [.call i cfg.tickets op]

/-- The thread `t` of client `i` has issued `c`, was answered `r`, and is left with `p` in
the shared state `s`. -/
def acted (cfg : Config Client C R σ Op Val) (i : Client) (t : Thread C R Op Val) (c : C)
    (r : R c) (s : σ) (p : Prog C R Val) : Config Client C R σ Op Val where
  shared := s
  threads := Function.update cfg.threads i (some ⟨t.ticket, t.op, p⟩)
  tickets := cfg.tickets
  history := cfg.history ++ [.act t.ticket t.op c r]

/-- The thread `t` of client `i` has returned `v`. -/
def returned (cfg : Config Client C R σ Op Val) (i : Client) (t : Thread C R Op Val)
    (v : Val) : Config Client C R σ Op Val where
  shared := cfg.shared
  threads := Function.update cfg.threads i none
  tickets := cfg.tickets
  history := cfg.history ++ [.ret t.ticket t.op v]

/-- The environment has changed the shared state to `s`. -/
def drifted (cfg : Config Client C R σ Op Val) (s : σ) : Config Client C R σ Op Val :=
  { cfg with shared := s }

theorem next?_called (cfg : Config Client C R σ Op Val) (i : Client) (op : Op)
    (p : Prog C R Val) :
  (cfg.called i op p).next? = Function.update cfg.next? i p.head?
  := by
  funext j
  by_cases hji : j = i
  · subst hji
    simp [next?, called]
  · simp [next?, called, hji]

theorem next?_acted (cfg : Config Client C R σ Op Val) (i : Client) (t : Thread C R Op Val)
    (c : C) (r : R c) (s : σ) (p : Prog C R Val) :
  (cfg.acted i t c r s p).next? = Function.update cfg.next? i p.head?
  := by
  funext j
  by_cases hji : j = i
  · subst hji
    simp [next?, acted]
  · simp [next?, acted, hji]

theorem next?_returned (cfg : Config Client C R σ Op Val) (i : Client) (t : Thread C R Op Val)
    (v : Val) :
  (cfg.returned i t v).next? = Function.update cfg.next? i none
  := by
  funext j
  by_cases hji : j = i
  · subst hji
    simp [next?, returned]
  · simp [next?, returned, hji]

end Config

namespace Machine

variable [DecidableEq Client] (M : Machine C R σ Op Val Env)

/-- The configuration after a turn, if the turn can be taken. -/
def step (cfg : Config Client C R σ Op Val) :
    Turn Client Op Env → Option (Config Client C R σ Op Val)
  | .call i op =>
      match cfg.threads i with
      | none => some (cfg.called i op (M.impl op))
      | some _ => none
  | .act i =>
      match cfg.threads i with
      | some ⟨n, op, .act c next⟩ =>
          (M.exec c cfg.shared).map fun rs =>
            cfg.acted i ⟨n, op, .act c next⟩ c rs.1 rs.2 (next rs.1)
      | _ => none
  | .ret i =>
      match cfg.threads i with
      | some ⟨n, op, .ret v⟩ => some (cfg.returned i ⟨n, op, .ret v⟩ v)
      | _ => none
  | .env e => (M.env e cfg.shared).map cfg.drifted

/-- What a turn can do. -/
inductive Step (cfg : Config Client C R σ Op Val) :
    Turn Client Op Env → Config Client C R σ Op Val → Prop where
  | call {i op} (idle : cfg.threads i = none) :
      Step cfg (.call i op) (cfg.called i op (M.impl op))
  | act {i n op c next r s} (running : cfg.threads i = some ⟨n, op, .act c next⟩)
      (exec : M.exec c cfg.shared = some (r, s)) :
      Step cfg (.act i) (cfg.acted i ⟨n, op, .act c next⟩ c r s (next r))
  | ret {i n op v} (running : cfg.threads i = some ⟨n, op, .ret v⟩) :
      Step cfg (.ret i) (cfg.returned i ⟨n, op, .ret v⟩ v)
  | env {e s} (exec : M.env e cfg.shared = some s) :
      Step cfg (.env e) (cfg.drifted s)

/-- Everything `step` does is a step. -/
theorem Step.of_step {cfg cfg' : Config Client C R σ Op Val} {l : Turn Client Op Env}
    (h : M.step cfg l = some cfg') :
  M.Step cfg l cfg'
  := by
  cases l with
  | call i op =>
      rw [step] at h
      cases hi : cfg.threads i with
      | none =>
          rw [hi] at h
          obtain rfl := Option.some.inj h
          apply Step.call hi
      | some t =>
          rw [hi] at h
          cases h
  | act i =>
      rw [step] at h
      match hi : cfg.threads i with
      | none =>
          rw [hi] at h
          cases h
      | some ⟨n, op, .ret v⟩ =>
          rw [hi] at h
          cases h
      | some ⟨n, op, .act c next⟩ =>
          rw [hi] at h
          obtain ⟨⟨r, s⟩, hrs, rfl⟩ := Option.map_eq_some_iff.mp h
          apply Step.act hi hrs
  | ret i =>
      rw [step] at h
      match hi : cfg.threads i with
      | none =>
          rw [hi] at h
          cases h
      | some ⟨n, op, .act c next⟩ =>
          rw [hi] at h
          cases h
      | some ⟨n, op, .ret v⟩ =>
          rw [hi] at h
          obtain rfl := Option.some.inj h
          apply Step.ret hi
  | env e =>
      obtain ⟨s, hs, rfl⟩ := Option.map_eq_some_iff.mp h
      apply Step.env hs

/-- The configuration after a schedule of turns, if they can all be taken. -/
def execute (cfg : Config Client C R σ Op Val) :
    List (Turn Client Op Env) → Option (Config Client C R σ Op Val)
  | [] => some cfg
  | l :: ls => (M.step cfg l).bind fun cfg' => execute cfg' ls

/-- `cfg'` is reached from `cfg` by steps that satisfy `P` where they are taken. -/
inductive Reaches (P : Config Client C R σ Op Val → Turn Client Op Env → Prop)
    (cfg : Config Client C R σ Op Val) : Config Client C R σ Op Val → Prop where
  | refl : Reaches P cfg cfg
  | step {cfg' cfg'' l} (before : Reaches P cfg cfg') (allowed : P cfg' l)
      (step : M.Step cfg' l cfg'') : Reaches P cfg cfg''

/-- Reachable by steps without a condition. -/
abbrev Reachable (cfg cfg' : Config Client C R σ Op Val) : Prop :=
  M.Reaches (fun _ _ => True) cfg cfg'

variable {M} {P Q : Config Client C R σ Op Val → Turn Client Op Env → Prop}
  {cfg cfg' cfg'' : Config Client C R σ Op Val}

theorem Reaches.trans (h : M.Reaches P cfg cfg') (h' : M.Reaches P cfg' cfg'') :
  M.Reaches P cfg cfg''
  := by
  induction h' with
  | refl => apply h
  | step _ allowed step ih => apply ih.step allowed step

theorem Reaches.mono (h : M.Reaches P cfg cfg') (hPQ : ∀ cfg l, P cfg l → Q cfg l) :
  M.Reaches Q cfg cfg'
  := by
  induction h with
  | refl => apply Reaches.refl
  | step _ allowed step ih => apply ih.step (hPQ _ _ allowed) step

/-- What holds at the start and is kept by every allowed step holds of every configuration
reached. -/
theorem Reaches.invariant (h : M.Reaches P cfg cfg') (I : Config Client C R σ Op Val → Prop)
    (start : I cfg)
    (keep : ∀ cfg l cfg', I cfg → P cfg l → M.Step cfg l cfg' → I cfg') :
  I cfg'
  := by
  induction h with
  | refl => apply start
  | step _ allowed step ih => apply keep _ _ _ ih allowed step

/-- A command in the history was executed in the configuration reached before. -/
theorem Reaches.exec_of_history {s : σ} (h : M.Reaches P (Config.init s) cfg)
    {l₁ l₂ : List (Event Client C R Op Val)} {n : ℕ} {op : Op} {c : C} {r : R c}
    (hl : cfg.history = l₁ ++ .act n op c r :: l₂) :
  ∃ cfg₁ s', M.Reaches P (Config.init s) cfg₁ ∧ cfg₁.history = l₁ ∧
    M.exec c cfg₁.shared = some (r, s')
  := by
  induction h generalizing l₂ with
  | refl => simp [Config.init] at hl
  | @step cfg₁ _ _ before _ hs ih =>
      cases hs with
      | call _ | ret _ =>
          rcases append_cons_eq_concat hl with ⟨-, he, -⟩ | ⟨l₃, hl, -⟩
          · cases he
          · apply ih hl
      | act run hexec =>
          rcases append_cons_eq_concat hl with ⟨rfl, he, -⟩ | ⟨l₃, hl, -⟩
          · obtain ⟨-, -, rfl, hr⟩ := Event.act.inj he
            obtain rfl := eq_of_heq hr
            exact ⟨cfg₁, _, before, rfl, hexec⟩
          · apply ih hl
      | env _ => apply ih hl

/-- A call in the history was allowed in the configuration reached before. -/
theorem Reaches.allowed_of_history {s : σ} (h : M.Reaches P (Config.init s) cfg)
    {l₁ l₂ : List (Event Client C R Op Val)} {i : Client} {n : ℕ} {op : Op}
    (hl : cfg.history = l₁ ++ .call i n op :: l₂) :
  ∃ cfg₁, M.Reaches P (Config.init s) cfg₁ ∧ cfg₁.history = l₁ ∧ P cfg₁ (.call i op)
  := by
  induction h generalizing l₂ with
  | refl => simp [Config.init] at hl
  | @step cfg₁ _ _ before allowed hs ih =>
      cases hs with
      | call _ =>
          rcases append_cons_eq_concat hl with ⟨rfl, he, -⟩ | ⟨l₃, hl, -⟩
          · obtain ⟨rfl, -, rfl⟩ := Event.call.inj he
            exact ⟨cfg₁, before, rfl, allowed⟩
          · apply ih hl
      | act _ _ | ret _ =>
          rcases append_cons_eq_concat hl with ⟨-, he, -⟩ | ⟨l₃, hl, -⟩
          · cases he
          · apply ih hl
      | env _ => apply ih hl

/-- The configuration after a schedule, or the one before it if the schedule cannot be
executed. -/
def after (M : Machine C R σ Op Val Env) (cfg : Config Client C R σ Op Val)
    (ls : List (Turn Client Op Env)) : Config Client C R σ Op Val :=
  (M.execute cfg ls).getD cfg

/-- The turns a schedule takes, each with the configuration it is taken in. -/
def turns (M : Machine C R σ Op Val Env) (cfg : Config Client C R σ Op Val) :
    List (Turn Client Op Env) → List (Config Client C R σ Op Val × Turn Client Op Env)
  | [] => []
  | l :: ls => (cfg, l) :: ((M.step cfg l).map fun cfg' => turns M cfg' ls).getD []

/-- A schedule that can be executed by turns that satisfy `P` reaches its result. -/
theorem reaches_of_execute {ls : List (Turn Client Op Env)} (h : M.execute cfg ls = some cfg')
    (hP : ∀ x ∈ M.turns cfg ls, P x.1 x.2) :
  M.Reaches P cfg cfg'
  := by
  induction ls generalizing cfg with
  | nil =>
      obtain rfl := Option.some.inj h
      apply Reaches.refl
  | cons l ls ih =>
      obtain ⟨cfg₁, h₁, h₂⟩ := Option.bind_eq_some_iff.mp h
      rw [turns, h₁] at hP
      obtain ⟨hl, hls⟩ := List.forall_mem_cons.mp hP
      have first : M.Reaches P cfg cfg₁ := Reaches.refl.step hl (Step.of_step M h₁)
      apply first.trans (ih h₂ hls)

/-- The turns a schedule takes are its own. -/
theorem mem_of_mem_turns {ls : List (Turn Client Op Env)}
    {x : Config Client C R σ Op Val × Turn Client Op Env} (h : x ∈ M.turns cfg ls) :
  x.2 ∈ ls
  := by
  induction ls generalizing cfg with
  | nil => cases h
  | cons l ls ih =>
      rw [turns] at h
      rcases List.mem_cons.mp h with rfl | h
      · apply List.mem_cons_self
      · apply List.mem_cons_of_mem
        cases hs : M.step cfg l with
        | none =>
            rw [hs] at h
            cases h
        | some cfg' =>
            rw [hs] at h
            apply ih h

theorem reaches_after (ls : List (Turn Client Op Env))
    (hP : ∀ x ∈ M.turns cfg ls, P x.1 x.2) :
  M.Reaches P cfg (M.after cfg ls)
  := by
  rw [after]
  cases h : M.execute cfg ls with
  | none => apply Reaches.refl
  | some cfg' => apply reaches_of_execute h hP

theorem reachable_after (ls : List (Turn Client Op Env)) :
  M.Reachable cfg (M.after cfg ls)
  := reaches_after ls fun _ _ => trivial

end Machine

/-! ### Sound histories -/

/-- The history of a configuration is that of its threads: tickets are never given twice,
the events of an operation come in the order call, commands, return, and a client calls
an operation only after its previous one returned. -/
structure Sound (cfg : Config Client C R σ Op Val) : Prop where
  event_lt : ∀ e ∈ cfg.history, e.ticket < cfg.tickets
  thread_lt : ∀ i t, cfg.threads i = some t → t.ticket < cfg.tickets
  thread_inj : ∀ i j t u, cfg.threads i = some t → cfg.threads j = some u →
    t.ticket = u.ticket → i = j
  running : ∀ i t, cfg.threads i = some t → ∀ e ∈ cfg.history, e.ticket = t.ticket →
    e.op = t.op ∧ ¬ e.IsRet
  calling : ∀ i t, cfg.threads i = some t → .call i t.ticket t.op ∈ cfg.history
  ordered : cfg.history.Pairwise fun e e' => e.ticket = e'.ticket →
    e.op = e'.op ∧ ¬ e.IsRet ∧ ¬ e'.IsCall
  opened : ∀ e ∈ cfg.history, ∃ i, .call i e.ticket e.op ∈ cfg.history
  settled : ∀ i n op, .call i n op ∈ cfg.history →
    (∃ v, .ret n op v ∈ cfg.history) ∨ ∃ t, cfg.threads i = some t ∧ t.ticket = n
  sequential : ∀ i a op b op', Before cfg.history (.call i a op) (.call i b op') →
    ∃ v, Before cfg.history (.ret a op v) (.call i b op')

namespace Sound

theorem init (s : σ) :
  Sound (Config.init s : Config Client C R σ Op Val)
  := by
  constructor
  case ordered => apply List.Pairwise.nil
  case sequential =>
    intro _ _ _ _ _ h
    cases h.left_mem
  all_goals
    intros
    contradiction

variable {cfg : Config Client C R σ Op Val}

/-- Two events with the same ticket belong to the same operation. -/
theorem op_eq (h : Sound cfg) {e e' : Event Client C R Op Val} (he : e ∈ cfg.history)
    (he' : e' ∈ cfg.history) (hee' : e.ticket = e'.ticket) :
  e.op = e'.op
  := by
  let R (e e' : Event Client C R Op Val) : Prop := e.ticket = e'.ticket → e.op = e'.op
  have key : cfg.history.Pairwise R := h.ordered.imp fun h₁ h₂ => (h₁ h₂).1
  have flip : cfg.history.Pairwise (flip R) :=
    h.ordered.imp fun h₁ h₂ => (h₁ h₂.symm).1.symm
  apply List.Pairwise.forall_of_forall_of_flip (fun _ _ _ => rfl) key flip he he' hee'

/-- If one operation returned before another was called, every event of the first comes
before every event of the second. -/
theorem real_time (h : Sound cfg) {i : Client} {a b : ℕ} {op op' : Op} {v : Val}
    (hab : Before cfg.history (.ret a op v) (.call i b op'))
    {e e' : Event Client C R Op Val} (he : e ∈ cfg.history) (he' : e' ∈ cfg.history)
    (ha : e.ticket = a) (hb : e'.ticket = b) :
  Before cfg.history e e'
  := by
  obtain ⟨l₁, l₂, hl, hret, hcall⟩ := hab
  have key := h.ordered
  rw [hl] at key he he'
  obtain ⟨-, -, key⟩ := List.pairwise_append.mp key
  use l₁, l₂, hl
  constructor
  · rcases List.mem_append.mp he with he | he
    · apply he
    · apply absurd _ (key _ hret e he ha.symm).2.1
      simp
  · rcases List.mem_append.mp he' with he' | he'
    · apply absurd _ (key e' he' _ hcall hb).2.2
      simp
    · apply he'

/-- If one operation returned before another was called, no event of the second comes before one
of the first. -/
theorem not_before (h : Sound cfg) {i : Client} {a b : ℕ} {op op' : Op} {v : Val}
    (hab : Before cfg.history (.ret a op v) (.call i b op'))
    {e e' : Event Client C R Op Val} (ha : e.ticket = a) (hb : e'.ticket = b) :
  ¬ Before cfg.history e' e
  := by
  obtain ⟨l₁, l₂, hl, hret, hcall⟩ := hab
  rintro ⟨m₁, m₂, hm, he', he⟩
  have key := h.ordered
  rw [hl] at key
  obtain ⟨-, -, key⟩ := List.pairwise_append.mp key
  have late : e ∉ l₂ := fun he => (key _ hret e he ha.symm).2.1 trivial
  have early : e' ∉ l₁ := fun he' => (key e' he' _ hcall hb).2.2 trivial
  rcases List.append_eq_append_iff.mp (hl.symm.trans hm) with ⟨t, -, rfl⟩ | ⟨t, rfl, -⟩
  · exact late (List.mem_append_right t he)
  · exact early (List.mem_append_left t he')

/-- If one operation returned before another was called, the events of the first have happened
when one of the second does. -/
theorem mem_of_split (h : Sound cfg) {i : Client} {a b : ℕ} {op op' : Op} {v : Val}
    (hab : Before cfg.history (.ret a op v) (.call i b op'))
    {e e' : Event Client C R Op Val} (he : e ∈ cfg.history) (ha : e.ticket = a)
    (hb : e'.ticket = b) {l₁ l₂ : List (Event Client C R Op Val)}
    (hl : cfg.history = l₁ ++ e' :: l₂) :
  e ∈ l₁
  := by
  have distinct : a ≠ b := by
    rintro rfl
    exact h.not_before hab rfl rfl hab
  have mem := he
  rw [hl] at mem
  rcases List.mem_append.mp mem with mem | mem
  · exact mem
  · rcases List.mem_cons.mp mem with rfl | mem
    · exact absurd (ha.symm.trans hb) distinct
    · apply absurd _ (h.not_before hab ha hb)
      use l₁ ++ [e'], l₂, hl.trans (List.append_cons l₁ e' l₂)
      exact ⟨List.mem_append_right l₁ (List.mem_singleton_self e'), mem⟩

/-- When no operation is in progress, every one that was called has returned. -/
theorem returned_of_quiescent (h : Sound cfg) (quiescent : cfg.Quiescent) {i : Client} {n : ℕ}
    {op : Op} (hcall : .call i n op ∈ cfg.history) :
  ∃ v, .ret n op v ∈ cfg.history
  := by
  rcases h.settled i n op hcall with hv | ⟨t, ht, -⟩
  · apply hv
  · rw [quiescent i] at ht
    cases ht

variable [DecidableEq Client]

/-- A call keeps the history sound. -/
theorem called (h : Sound cfg) {i : Client} (idle : cfg.threads i = none) (op : Op)
    (p : Prog C R Val) :
  Sound (cfg.called i op p)
  := by
  have threads : ∀ j t, (cfg.called i op p).threads j = some t →
      (j = i ∧ t = ⟨cfg.tickets, op, p⟩) ∨ (j ≠ i ∧ cfg.threads j = some t) := by
    intro j t ht
    rcases of_update_eq_some ht with ⟨hji, ht⟩ | ⟨hji, ht⟩
    · left
      use hji, (Option.some.inj ht).symm
    · right
      use hji, ht
  have history : ∀ e, e ∈ (cfg.called i op p).history →
      e ∈ cfg.history ∨ e = .call i cfg.tickets op := by
    intro e he
    simpa [Config.called] using he
  have old : ∀ e, e ∈ cfg.history → e ∈ (cfg.called i op p).history :=
    fun e he => List.mem_append_left _ he
  have new : .call i cfg.tickets op ∈ (cfg.called i op p).history := by
    simp [Config.called]
  constructor
  case event_lt =>
    intro e he
    rcases history e he with he | rfl
    · apply Nat.lt_succ_of_lt (h.event_lt e he)
    · apply Nat.lt_succ_self
  case thread_lt =>
    intro j t ht
    rcases threads j t ht with ⟨-, rfl⟩ | ⟨-, ht⟩
    · apply Nat.lt_succ_self
    · apply Nat.lt_succ_of_lt (h.thread_lt j t ht)
  case thread_inj =>
    intro j k t u ht hu htu
    rcases threads j t ht with ⟨rfl, rfl⟩ | ⟨-, ht'⟩ <;>
      rcases threads k u hu with ⟨rfl, rfl⟩ | ⟨-, hu'⟩
    · rfl
    · apply absurd (h.thread_lt k u hu')
      simp [← htu]
    · apply absurd (h.thread_lt j t ht')
      simp [htu]
    · apply h.thread_inj j k t u ht' hu' htu
  case running =>
    intro j t ht e he het
    rcases threads j t ht with ⟨-, rfl⟩ | ⟨-, ht'⟩ <;> rcases history e he with he' | rfl
    · apply absurd (h.event_lt e he')
      simp [het]
    · simp
    · apply h.running j t ht' e he' het
    · apply absurd (h.thread_lt j t ht')
      simp [← het]
  case calling =>
    intro j t ht
    rcases threads j t ht with ⟨rfl, rfl⟩ | ⟨-, ht⟩
    · apply new
    · apply old _ (h.calling j t ht)
  case ordered =>
    apply List.pairwise_append.mpr
    use h.ordered, List.pairwise_singleton _ _
    intro e he e' he' hee'
    obtain rfl := List.mem_singleton.mp he'
    apply absurd (h.event_lt e he)
    simp [hee']
  case opened =>
    intro e he
    rcases history e he with he | rfl
    · obtain ⟨j, hj⟩ := h.opened e he
      use j
      apply old _ hj
    · use i
      apply new
  case settled =>
    intro j n op' hj
    rcases history _ hj with hj | hj
    · rcases h.settled j n op' hj with ⟨v, hv⟩ | ⟨t, ht, rfl⟩
      · left
        use v
        apply old _ hv
      · right
        use t
        have hji : j ≠ i := by
          rintro rfl
          rw [idle] at ht
          cases ht
        simp [Config.called, Function.update_of_ne hji, ht]
    · right
      obtain ⟨rfl, rfl, rfl⟩ := Event.call.inj hj
      use ⟨cfg.tickets, op', p⟩
      simp [Config.called]
  case sequential =>
    intro j a op₁ b op₂ hab
    rcases hab.of_concat with hab | ⟨ha, hb⟩
    · obtain ⟨v, hv⟩ := h.sequential j a op₁ b op₂ hab
      use v
      apply hv.append
    · obtain ⟨rfl, rfl, rfl⟩ := Event.call.inj hb
      rcases h.settled j a op₁ ha with ⟨v, hv⟩ | ⟨t, ht, -⟩
      · use v
        apply Before.concat hv
      · rw [idle] at ht
        cases ht

/-- An event of a running thread, which goes on after a command and is gone after a return,
keeps the history sound. -/
theorem continued (h : Sound cfg) {i : Client} {t : Thread C R Op Val}
    (running : cfg.threads i = some t) {e : Event Client C R Op Val}
    (hticket : e.ticket = t.ticket) (hop : e.op = t.op) (hcall : ¬ e.IsCall) (s : σ)
    {t' : Option (Thread C R Op Val)}
    (ht' : (¬ e.IsRet ∧ ∃ u, t' = some u ∧ u.ticket = t.ticket ∧ u.op = t.op)
      ∨ ((∃ v, e = .ret t.ticket t.op v) ∧ t' = none)) :
  Sound ⟨s, Function.update cfg.threads i t', cfg.tickets, cfg.history ++ [e]⟩
  := by
  have threads : ∀ j u, Function.update cfg.threads i t' j = some u →
      (j = i ∧ u.ticket = t.ticket ∧ u.op = t.op ∧ ¬ e.IsRet)
        ∨ (j ≠ i ∧ cfg.threads j = some u) := by
    intro j u hu
    rcases of_update_eq_some hu with ⟨hji, hu⟩ | ⟨hji, hu⟩
    · left
      rcases ht' with ⟨hret, u', rfl, hu'⟩ | ⟨-, rfl⟩
      · obtain rfl := Option.some.inj hu
        use hji, hu'.1, hu'.2
      · cases hu
    · right
      use hji, hu
  have history : ∀ e', e' ∈ cfg.history ++ [e] → e' ∈ cfg.history ∨ e' = e := by
    intro e' he'
    simpa using he'
  have old : ∀ e', e' ∈ cfg.history → e' ∈ cfg.history ++ [e] :=
    fun e' he' => List.mem_append_left _ he'
  have same : ∀ j u, cfg.threads j = some u → u.ticket = t.ticket → j = i :=
    fun j u hu hut => h.thread_inj j i u t hu running hut
  constructor
  case event_lt =>
    intro e' he'
    rcases history e' he' with he' | rfl
    · apply h.event_lt e' he'
    · rw [hticket]
      apply h.thread_lt i t running
  case thread_lt =>
    intro j u hu
    rcases threads j u hu with ⟨-, hut, -⟩ | ⟨-, hu⟩
    · rw [hut]
      apply h.thread_lt i t running
    · apply h.thread_lt j u hu
  case thread_inj =>
    intro j k u v hu hv huv
    rcases threads j u hu with ⟨rfl, hut, -⟩ | ⟨hj, hu'⟩ <;>
      rcases threads k v hv with ⟨rfl, hvt, -⟩ | ⟨hk, hv'⟩
    · rfl
    · apply absurd (same k v hv' (huv.symm.trans hut)) hk
    · apply absurd (same j u hu' (huv.trans hvt)) hj
    · apply h.thread_inj j k u v hu' hv' huv
  case running =>
    intro j u hu e' he' heu
    rcases threads j u hu with ⟨-, hut, huo, hret⟩ | ⟨hj, hu'⟩ <;>
      rcases history e' he' with he' | rfl
    · rw [huo]
      apply h.running i t running e' he' (heu.trans hut)
    · rw [huo]
      use hop
    · apply h.running j u hu' e' he' heu
    · apply absurd (same j u hu' (heu.symm.trans hticket)) hj
  case calling =>
    intro j u hu
    rcases threads j u hu with ⟨rfl, hut, huo, -⟩ | ⟨-, hu⟩
    · rw [hut, huo]
      apply old _ (h.calling j t running)
    · apply old _ (h.calling j u hu)
  case ordered =>
    apply List.pairwise_append.mpr
    use h.ordered, List.pairwise_singleton _ _
    intro e₁ he₁ e₂ he₂ h₁₂
    obtain rfl := List.mem_singleton.mp he₂
    obtain ⟨ho, hr⟩ := h.running i t running e₁ he₁ (h₁₂.trans hticket)
    use ho.trans hop.symm
  case opened =>
    intro e' he'
    rcases history e' he' with he' | rfl
    · obtain ⟨j, hj⟩ := h.opened e' he'
      use j
      apply old _ hj
    · use i
      rw [hticket, hop]
      apply old _ (h.calling i t running)
  case settled =>
    intro j n op hj
    rcases history _ hj with hj' | rfl
    · rcases h.settled j n op hj' with ⟨v, hv⟩ | ⟨u, hu, rfl⟩
      · left
        use v
        apply old _ hv
      · by_cases hji : j = i
        · subst hji
          obtain rfl := Option.some.inj (running.symm.trans hu)
          rcases ht' with ⟨-, u, rfl, hut, -⟩ | ⟨⟨v, rfl⟩, -⟩
          · right
            use u
            simp [hut]
          · left
            use v
            have hrun := h.running j t running _ hj'
            obtain ⟨rfl, -⟩ := hrun rfl
            simp
        · right
          use u
          simp [Function.update_of_ne hji, hu]
    · apply absurd _ hcall
      simp
  case sequential =>
    intro j a op₁ b op₂ hab
    rcases hab.of_concat with hab | ⟨-, rfl⟩
    · obtain ⟨v, hv⟩ := h.sequential j a op₁ b op₂ hab
      use v
      apply hv.append
    · apply absurd _ hcall
      simp

/-- Every step keeps the history sound. -/
theorem step {M : Machine C R σ Op Val Env} {l : Turn Client Op Env}
    {cfg' : Config Client C R σ Op Val} (h : Sound cfg) (hs : M.Step cfg l cfg') :
  Sound cfg'
  := by
  cases hs with
  | call idle => apply h.called idle
  | act running _ =>
      apply h.continued running rfl rfl (by simp)
      left
      simp
  | ret running =>
      apply h.continued running rfl rfl (by simp)
      right
      simp
  | env _ => exact { h with }

/-- Every configuration reached from the start is sound. -/
theorem of_reaches {M : Machine C R σ Op Val Env}
    {P : Config Client C R σ Op Val → Turn Client Op Env → Prop} {s : σ}
    (h : M.Reaches P (Config.init s) cfg) :
  Sound cfg
  := h.invariant Sound (Sound.init s) fun _ _ _ h _ hs => h.step hs

end Sound

end Atomic
