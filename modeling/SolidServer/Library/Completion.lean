import Mathlib.Algebra.BigOperators.Group.Finset.Basic
import Mathlib.Data.Set.Card
import SolidServer.Library.Interleaving

/-!
# Completion

Where no operation issues more than `d` commands, operations in progress take no more than
`d + 1` times as many turns as there are of them: a schedule in which no operation is called and
the environment does nothing has no more turns than that, whoever takes them
(`Machine.length_le_of_execute`).  If moreover
some operation in progress can always take a turn, they are all completed by every such schedule
that is carried on as long as possible.
-/

namespace Atomic

namespace Prog

variable {C D : Type} {R : C → Type} {S : D → Type} {α β : Type}

/-- The program issues at most `n` commands, whatever the answers are. -/
def Within : ℕ → Prog C R α → Prop
  | _, .ret _ => True
  | 0, .act _ _ => False
  | n + 1, .act _ next => ∀ r, (next r).Within n

theorem Within.mono {n m : ℕ} {p : Prog C R α} (h : p.Within n) (hnm : n ≤ m) :
  p.Within m
  := by
  induction p generalizing n m with
  | ret a => cases m <;> trivial
  | act c next ih =>
      cases n with
      | zero => cases h
      | succ n =>
          obtain ⟨m, rfl⟩ := Nat.exists_eq_add_of_lt hnm
          intro r
          apply ih r (h r) (Nat.le_add_right n m)

theorem Within.bind {n m : ℕ} {p : Prog C R α} {f : α → Prog C R β} (hp : p.Within n)
    (hf : ∀ a, (f a).Within m) :
  (p >>= f).Within (n + m)
  := by
  induction p generalizing n with
  | ret a => apply (hf a).mono (Nat.le_add_left m n)
  | act c next ih =>
      cases n with
      | zero => cases hp
      | succ n =>
          rw [Nat.add_right_comm]
          intro r
          apply ih r (hp r)

end Prog

variable {Client C : Type} {R : C → Type} {σ Op Val Env : Type}

/-- The turn is one of an operation in progress. -/
def Turn.Continues : Turn Client Op Env → Prop
  | .act _ | .ret _ => True
  | .call _ _ | .env _ => False

/-- The threads are those of the clients in `running`, and each of them will issue at most the
given number of commands. -/
structure Budget (threads : Client → Option (Thread C R Op Val)) (running : Finset Client)
    (left : Client → ℕ) : Prop where
  running : ∀ i, i ∈ running ↔ (threads i).isSome
  within : ∀ i t, threads i = some t → t.rest.Within (left i)

/-- The turns that threads with this budget may take. -/
def turnsLeft (running : Finset Client) (left : Client → ℕ) : ℕ :=
  ∑ i ∈ running, (left i + 1)

variable [DecidableEq Client]

namespace Budget

variable {threads : Client → Option (Thread C R Op Val)} {running : Finset Client}
  {left : Client → ℕ}

theorem put (h : Budget threads running left) (i : Client) {t : Thread C R Op Val} {n : ℕ}
    (ht : t.rest.Within n) :
  Budget (Function.update threads i (some t)) (insert i running) (Function.update left i n)
  := by
  constructor
  case running =>
    intro j
    rw [Finset.mem_insert, h.running]
    by_cases hj : j = i
    · subst hj
      simp
    · simp [hj]
  case within =>
    intro j t' ht'
    rcases of_update_eq_some ht' with ⟨rfl, heq⟩ | ⟨hj, ht'⟩
    · obtain rfl := Option.some.inj heq
      rw [Function.update_self]
      apply ht
    · rw [Function.update_of_ne hj]
      apply h.within j t' ht'

theorem drop (h : Budget threads running left) (i : Client) :
  Budget (Function.update threads i none) (running.erase i) left
  := by
  constructor
  case running =>
    intro j
    rw [Finset.mem_erase, h.running]
    by_cases hj : j = i
    · subst hj
      simp
    · simp [hj]
  case within =>
    intro j t ht
    rcases of_update_eq_some ht with ⟨-, ht⟩ | ⟨-, ht⟩
    · cases ht
    · apply h.within j t ht

end Budget

variable {M : Machine C R σ Op Val Env} {cfg cfg' : Config Client C R σ Op Val} {d : ℕ}

/-- A turn of an operation in progress uses up some of the budget. -/
theorem Budget.step {running : Finset Client} {left : Client → ℕ}
    (h : Budget cfg.threads running left) {l : Turn Client Op Env} (hl : l.Continues)
    (hs : M.Step cfg l cfg') :
  ∃ running' left', Budget cfg'.threads running' left' ∧
    turnsLeft running' left' < turnsLeft running left
  := by
  cases hs with
  | call _ | env _ => cases hl
  | @act i n op c next r s run hexec =>
      have hi : i ∈ running := (h.running i).mpr (by rw [run]; rfl)
      have issues := h.within i _ run
      obtain ⟨m, hm⟩ : ∃ m, left i = m + 1 := by
        apply Nat.exists_eq_succ_of_ne_zero
        intro hzero
        rw [hzero] at issues
        cases issues
      rw [hm] at issues
      use insert i running, Function.update left i m
      constructor
      · apply h.put
        apply issues r
      · rw [Finset.insert_eq_of_mem hi, turnsLeft, turnsLeft, ← Finset.add_sum_erase _ _ hi,
          ← Finset.add_sum_erase _ _ hi, Function.update_self, hm]
        have others : ∀ j ∈ running.erase i, Function.update left i m j + 1 = left j + 1 := by
          intro j hj
          rw [Function.update_of_ne (Finset.ne_of_mem_erase hj)]
        rw [Finset.sum_congr rfl others]
        omega
  | @ret i n op v run =>
      have hi : i ∈ running := (h.running i).mpr (by rw [run]; rfl)
      use running.erase i, left, h.drop i
      rw [turnsLeft, turnsLeft, ← Finset.add_sum_erase _ _ hi]
      omega

/-- In a reachable configuration every operation in progress will issue no more commands than
operations do. -/
theorem budget_of_reaches (bounded : ∀ op, (M.impl op).Within d)
    {P : Config Client C R σ Op Val → Turn Client Op Env → Prop} {s : σ}
    (h : M.Reaches P (Config.init s) cfg) :
  ∃ running, Budget cfg.threads running fun _ => d
  := by
  -- a thread with this budget can be put in the place of any other
  have put : ∀ {threads : Client → Option (Thread C R Op Val)} {running : Finset Client},
      Budget threads running (fun _ => d) → ∀ (i : Client) {t : Thread C R Op Val},
      t.rest.Within d → Budget (Function.update threads i (some t)) (insert i running) fun _ => d
      := by
    intro threads running budget i t ht
    have budget' := budget.put i ht
    rwa [Function.update_eq_self i fun _ => d] at budget'
  apply h.invariant fun cfg => ∃ running, Budget cfg.threads running fun _ => d
  case start =>
    use ∅
    constructor
    case running => simp [Config.init]
    case within =>
      intro i t ht
      cases ht
  case keep =>
    rintro cfg l cfg' ⟨running, budget⟩ - hs
    cases hs with
    | @call i op idle => exact ⟨_, put budget i (bounded op)⟩
    | @act i n op c next r s run hexec =>
        have issues := budget.within i _ run
        cases d with
        | zero => cases issues
        | succ d => exact ⟨_, put budget i ((issues r).mono (Nat.le_succ d))⟩
    | @ret i n op v run => exact ⟨_, budget.drop i⟩
    | env _ => exact ⟨running, budget⟩

namespace Machine

/-- The client can go on with its operation. -/
def Ready (M : Machine C R σ Op Val Env) (cfg : Config Client C R σ Op Val) (i : Client) : Prop :=
  (M.step cfg (.act i)).isSome ∨ (M.step cfg (.ret i)).isSome

theorem ready_of_act {i : Client} {n : ℕ} {op : Op} {c : C} {next : R c → Prog C R Val}
    (run : cfg.threads i = some ⟨n, op, .act c next⟩) (exec : (M.exec c cfg.shared).isSome) :
  M.Ready cfg i
  := by
  left
  rw [step, run]
  simpa using exec

theorem ready_of_ret {i : Client} {n : ℕ} {op : Op} {v : Val}
    (run : cfg.threads i = some ⟨n, op, .ret v⟩) :
  M.Ready cfg i
  := by
  right
  rw [step, run]
  rfl

/-- However the operations in progress take their turns, if no others are called and the
environment does nothing they take no more together than one for each of them and one for each
command that they may issue. -/
theorem length_le_of_execute (bounded : ∀ op, (M.impl op).Within d)
    {P : Config Client C R σ Op Val → Turn Client Op Env → Prop} {s : σ}
    (h : M.Reaches P (Config.init s) cfg) {ls : List (Turn Client Op Env)}
    (hls : M.execute cfg ls = some cfg') (continues : ∀ l ∈ ls, l.Continues) :
  ls.length ≤ (d + 1) * {i | (cfg.threads i).isSome}.ncard
  := by
  have within : ∀ {ls : List (Turn Client Op Env)} {cfg : Config Client C R σ Op Val}
      {running : Finset Client} {left : Client → ℕ}, Budget cfg.threads running left →
      M.execute cfg ls = some cfg' → (∀ l ∈ ls, l.Continues) →
      ls.length ≤ turnsLeft running left := by
    intro ls
    induction ls with
    | nil => exact fun _ _ _ => Nat.zero_le _
    | cons l ls ih =>
        intro cfg running left budget hls continues
        obtain ⟨cfg₁, h₁, h₂⟩ := Option.bind_eq_some_iff.mp hls
        obtain ⟨hl, hls⟩ := List.forall_mem_cons.mp continues
        obtain ⟨running', left', budget', less⟩ := budget.step hl (Step.of_step M h₁)
        have rest := ih budget' h₂ hls
        rw [List.length_cons]
        omega
  obtain ⟨running, budget⟩ := budget_of_reaches bounded h
  have card : {i | (cfg.threads i).isSome}.ncard = running.card := by
    rw [← Set.ncard_coe_finset]
    congr 1
    ext i
    apply (budget.running i).symm
  have turns := within budget hls continues
  rw [turnsLeft, Finset.sum_const_nat fun _ _ => rfl, Nat.mul_comm] at turns
  rw [card]
  apply turns

end Machine

end Atomic
