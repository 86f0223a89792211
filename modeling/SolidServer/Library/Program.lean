import Mathlib.Data.Sigma.Basic
import Mathlib.Data.List.Basic
import Mathlib.Logic.Function.Basic

/-!
# Programs of atomic commands

`Prog C R α` is a program over the commands `C`, where `c : C` is answered by an element
of `R c`, returning an element of `α`.  Given an execution `exec` of the commands on a
state `σ`, `run exec p s` is the result of `p` from `s` when nothing interferes, and
`trace exec p s` the commands it issues there, each with its answer; `runOption exec p s` is the
result where commands may get stuck.  `Issues P p` says
that every command `p` can issue, whatever the answers are, satisfies `P`.
-/

namespace Atomic

/-- A program over the commands `C`: it returns a value, or issues a command and goes on
with the answer. -/
inductive Prog (C : Type) (R : C → Type) (α : Type) where
  | ret (a : α)
  | act (c : C) (next : R c → Prog C R α)

namespace Prog

variable {C D : Type} {R : C → Type} {S : D → Type} {σ α β : Type}

/-- Run `p`, then `f` at its result. -/
def bind : Prog C R α → (α → Prog C R β) → Prog C R β
  | .ret a, f => f a
  | .act c next, f => .act c fun r => (next r).bind f

instance : Monad (Prog C R) where
  pure := ret
  bind := bind

/-- The program issuing the single command `c`. -/
def call (c : C) : Prog C R (R c) :=
  .act c .ret

@[simp]
theorem pure_eq (a : α) :
  (pure a : Prog C R α) = .ret a
  := rfl

@[simp]
theorem bind_eq (p : Prog C R α) (f : α → Prog C R β) :
  p.bind f = p >>= f
  := rfl

@[simp]
theorem ret_bind (a : α) (f : α → Prog C R β) :
  (Prog.ret a : Prog C R α) >>= f = f a
  := rfl

@[simp]
theorem act_bind (c : C) (next : R c → Prog C R α) (f : α → Prog C R β) :
  Prog.act c next >>= f = .act c fun r => next r >>= f
  := rfl

@[simp]
theorem call_bind (c : C) (f : R c → Prog C R β) :
  (call c : Prog C R (R c)) >>= f = .act c f
  := rfl

/-- The command a program issues first, if it does not return at once. -/
def head? : Prog C R α → Option C
  | .ret _ => none
  | .act c _ => some c

@[simp]
theorem head?_ret (a : α) :
  (Prog.ret a : Prog C R α).head? = none
  := rfl

@[simp]
theorem head?_act (c : C) (next : R c → Prog C R α) :
  (Prog.act c next).head? = some c
  := rfl

/-- Replace every command `c` of a program by the program `f c`. -/
def translate (f : (c : C) → Prog D S (R c)) : Prog C R α → Prog D S α
  | .ret a => .ret a
  | .act c next => f c >>= fun r => (next r).translate f

/-! ### Running a program alone -/

/-- The result of a program and the state it leaves. -/
def run (exec : (c : C) → σ → R c × σ) : Prog C R α → σ → α × σ
  | .ret a, s => (a, s)
  | .act c next, s => (next (exec c s).1).run exec (exec c s).2

/-- The result of a program and the state it leaves, if no command gets stuck. -/
def runOption (exec : (c : C) → σ → Option (R c × σ)) : Prog C R α → σ → Option (α × σ)
  | .ret a, s => some (a, s)
  | .act c next, s => (exec c s).bind fun e => (next e.1).runOption exec e.2

/-- The commands a program issues, each with the answer it gets. -/
def trace (exec : (c : C) → σ → R c × σ) : Prog C R α → σ → List (Σ c, R c)
  | .ret _, _ => []
  | .act c next, s => ⟨c, (exec c s).1⟩ :: (next (exec c s).1).trace exec (exec c s).2

variable (exec : (c : C) → σ → R c × σ)

@[simp]
theorem run_ret (a : α) (s : σ) :
  (Prog.ret a : Prog C R α).run exec s = (a, s)
  := rfl

@[simp]
theorem run_act (c : C) (next : R c → Prog C R α) (s : σ) :
  (Prog.act c next).run exec s = (next (exec c s).1).run exec (exec c s).2
  := rfl

@[simp]
theorem trace_ret (a : α) (s : σ) :
  (Prog.ret a : Prog C R α).trace exec s = []
  := rfl

@[simp]
theorem trace_act (c : C) (next : R c → Prog C R α) (s : σ) :
  (Prog.act c next).trace exec s
    = ⟨c, (exec c s).1⟩ :: (next (exec c s).1).trace exec (exec c s).2
  := rfl

/-- Running `p` and then `f` runs `f` from the state `p` leaves. -/
@[simp]
theorem run_bind (p : Prog C R α) (f : α → Prog C R β) (s : σ) :
  (p >>= f).run exec s = (f (p.run exec s).1).run exec (p.run exec s).2
  := by
  induction p generalizing s with
  | ret a => rfl
  | act c next ih => apply ih

/-- The commands of `p` come before those of `f`. -/
@[simp]
theorem trace_bind (p : Prog C R α) (f : α → Prog C R β) (s : σ) :
  (p >>= f).trace exec s
    = p.trace exec s ++ (f (p.run exec s).1).trace exec (p.run exec s).2
  := by
  induction p generalizing s with
  | ret a => rfl
  | act c next ih =>
      rw [act_bind, trace_act, trace_act, ih]
      rfl

/-- If running `f c` is executing `c`, then running a translated program is running the
program. -/
theorem run_translate {exec' : (d : D) → σ → S d × σ} (f : (c : C) → Prog D S (R c))
    (hf : ∀ c s, (f c).run exec' s = exec c s) (p : Prog C R α) (s : σ) :
  (p.translate f).run exec' s = p.run exec s
  := by
  induction p generalizing s with
  | ret a => rfl
  | act c next ih =>
      rw [translate, run_bind, hf, ih]
      rfl

/-! ### The commands a program can issue -/

/-- Every command the program can issue satisfies `P`, whatever the answers are. -/
def Issues (P : C → Prop) : Prog C R α → Prop
  | .ret _ => True
  | .act c next => P c ∧ ∀ r, (next r).Issues P

theorem Issues.mono {P Q : C → Prop} (h : ∀ c, P c → Q c) {p : Prog C R α} (hp : p.Issues P) :
  p.Issues Q
  := by
  induction p with
  | ret a => trivial
  | act c next ih => exact ⟨h c hp.1, fun r => ih r (hp.2 r)⟩

theorem Issues.head? {P : C → Prop} {p : Prog C R α} (hp : p.Issues P) {c : C}
    (hc : c ∈ p.head?) :
  P c
  := by
  cases p with
  | ret a => cases hc
  | act c' next =>
      obtain rfl := Option.some.inj hc
      exact hp.1

theorem Issues.bind {P : C → Prop} {p : Prog C R α} {f : α → Prog C R β}
    (hp : p.Issues P) (hf : ∀ a, (f a).Issues P) :
  (p >>= f).Issues P
  := by
  induction p with
  | ret a => apply hf
  | act c next ih => exact ⟨hp.1, fun r => ih r (hp.2 r)⟩

/-- Every command in the trace of a program is one the program can issue. -/
theorem Issues.of_mem_trace {P : C → Prop} {p : Prog C R α} (hp : p.Issues P) {s : σ}
    {o : Σ c, R c} (ho : o ∈ p.trace exec s) :
  P o.1
  := by
  induction p generalizing s with
  | ret a => cases ho
  | act c next ih =>
      rcases List.mem_cons.mp ho with rfl | ho
      · apply hp.1
      · apply ih _ (hp.2 _) ho

end Prog

end Atomic
