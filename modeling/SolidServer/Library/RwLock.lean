import SolidServer.Library.Completion
import SolidServer.Library.Layering
import Mathlib.Data.Finset.Card

/-!
# Reader-writer locks

Operations `Op` run a program `body op` of commands on a state `σ` while they hold a lock, for
reading or for writing as `mode op` says.  `lockMachine` lets clients run them
concurrently: taking the lock, every command, and giving the lock back are separate steps.
The lock is given to a reader if no writer holds it, and to a writer if nobody holds it.

If the commands of readers leave the state alone, an operation has the effect of running its
body at once when it gives the lock back: the order in which the lock is given back is a
sequential order of the operations, which return what they return in this order
(`lock_linearizes`).  No operation waits for ever: as long as some are in progress, one that has
been given the lock can go on, or the lock is free (`lock_progress`).
-/

namespace Atomic

/-- What the lock is held for. -/
inductive LockMode where
  | read
  | write
deriving DecidableEq

/-- A state behind a lock: the state, how many hold the lock for reading, and whether it is
held for writing. -/
structure Locked (σ : Type) where
  inner : σ
  readers : ℕ
  writing : Bool

/-- The commands of operations that take the lock. -/
inductive LockCmd (C : Type) where
  | acquire (m : LockMode)
  | release (m : LockMode)
  | inner (c : C)

namespace LockCmd

variable {C : Type} {R : C → Type} {σ : Type}

/-- The answers to the commands. -/
@[reducible] def Answer (R : C → Type) : LockCmd C → Type
  | acquire _ | release _ => Unit
  | inner c => R c

/-- The effect of a command; acquiring is blocked until the lock can be given. -/
def exec (exec : (c : C) → σ → R c × σ) :
    (c : LockCmd C) → Locked σ → Option (c.Answer R × Locked σ)
  | acquire .read, s =>
      if s.writing then none else some ((), { s with readers := s.readers + 1 })
  | acquire .write, s =>
      if s.writing || s.readers != 0 then none else some ((), { s with writing := true })
  | release .read, s => some ((), { s with readers := s.readers - 1 })
  | release .write, s => some ((), { s with writing := false })
  | inner c, s => some ((exec c s.inner).1, { s with inner := (exec c s.inner).2 })

end LockCmd

namespace Prog

variable {C : Type} {R : C → Type} {α : Type}

/-- The program `p` in an operation that holds the lock, which is given back at the end. -/
def held (m : LockMode) (p : Prog C R α) : Prog (LockCmd C) (LockCmd.Answer R) α := do
  let a ← p.translate fun c => call (LockCmd.inner c)
  call (LockCmd.release m)
  return a

/-- Run a program while holding the lock. -/
def withLock (m : LockMode) (p : Prog C R α) : Prog (LockCmd C) (LockCmd.Answer R) α := do
  call (LockCmd.acquire m)
  p.held m

theorem withLock_eq (m : LockMode) (p : Prog C R α) :
  p.withLock m = .act (.acquire m) fun _ => p.held m
  := rfl

theorem held_ret (m : LockMode) (a : α) :
  (Prog.ret a : Prog C R α).held m = .act (.release m) fun _ => .ret a
  := rfl

theorem held_act (m : LockMode) (c : C) (next : R c → Prog C R α) :
  (Prog.act c next).held m = .act (.inner c) fun r => (next r).held m
  := rfl

end Prog

variable {Client C : Type} {R : C → Type} {σ Op Val : Type}

/-- Clients running operations under the lock. -/
def lockMachine (mode : Op → LockMode) (body : Op → Prog C R Val)
    (exec : (c : C) → σ → R c × σ) :
    Machine (LockCmd C) (LockCmd.Answer R) (Locked σ) Op Val Empty where
  impl op := (body op).withLock (mode op)
  exec := LockCmd.exec exec
  env := nofun

/-- Giving the lock back. -/
def LockCmd.isRelease : LockCmd C → Bool
  | release _ => true
  | _ => false

/-- Configurations of operations under a lock. -/
abbrev LockConfig (Client C : Type) (R : C → Type) (σ Op Val : Type) :=
  Config Client (LockCmd C) (LockCmd.Answer R) (Locked σ) Op Val

theorem Prog.endsAt_withLock (m : LockMode) (p : Prog C R Val) :
  (p.withLock m).EndsAt LockCmd.isRelease
  := by
  intro _
  change (p.held m).EndsAt LockCmd.isRelease
  induction p with
  | ret a =>
      intro _
      exact ⟨a, rfl⟩
  | act c next ih =>
      intro r
      apply ih

theorem Prog.onePoint_withLock (m : LockMode) (p : Prog C R Val) :
  (p.withLock m).OnePoint LockCmd.isRelease
  := (endsAt_withLock m p).onePoint

/-- Changing what is returned does not change what is done under the lock. -/
theorem Prog.withLock_bind_ret {α β : Type} (m : LockMode) (p : Prog C R α) (f : α → β) :
  (p >>= fun a => .ret (f a)).withLock m = p.withLock m >>= fun a => .ret (f a)
  := by
  rw [withLock_eq, withLock_eq, act_bind]
  congr 1
  funext _
  induction p with
  | ret a => rfl
  | act c next ih =>
      rw [act_bind, held_act, held_act, act_bind]
      congr 1
      funext r
      apply ih

theorem Prog.held_ne_withLock (m m' : LockMode) (p p' : Prog C R Val) :
  p.held m ≠ p'.withLock m'
  := by
  rw [withLock_eq]
  cases p with
  | ret a =>
      rw [held_ret]
      intro h
      cases (Prog.act.inj h).1
  | act c next =>
      rw [held_act]
      intro h
      cases (Prog.act.inj h).1

theorem Prog.held_ne_ret (m : LockMode) (p : Prog C R Val) (v : Val) :
  p.held m ≠ .ret v
  := by
  cases p <;> rintro ⟨⟩

/-! ### Holding the lock -/

section

variable (mode : Op → LockMode) (body : Op → Prog C R Val) (exec : (c : C) → σ → R c × σ)

/-- The thread holds the lock in the mode. -/
def Holding (m : LockMode) (t : Option (Thread (LockCmd C) (LockCmd.Answer R) Op Val)) : Prop :=
  ∃ n op p, t = some ⟨n, op, Prog.held m p⟩ ∧ mode op = m

/-- The operation, run at once. -/
def lockSpec (op : Op) (s : σ) : Val × σ :=
  (body op).run exec s

/-- The operations in the order in which they gave the lock back. -/
def releases (history : List (Event Client (LockCmd C) (LockCmd.Answer R) Op Val)) :
    List (ℕ × Op) :=
  history.filterMap (Event.pointed LockCmd.isRelease)

/-- Where a thread is: it has not taken the lock; or it holds the lock and is about to do what
the operation does at once from the state `abstract`; or it has given the lock back and
returns what is recorded. -/
def Stage (inner abstract : σ) (recorded : List (ℕ × Val))
    (t : Thread (LockCmd C) (LockCmd.Answer R) Op Val) : Prop :=
  t.rest = (body t.op).withLock (mode t.op) ∨
  (∃ p, t.rest = Prog.held (mode t.op) p ∧ p.run exec inner = lockSpec body exec t.op abstract ∧
    (mode t.op = .read → p.Issues fun c => ∀ s, (exec c s).2 = s)) ∨
  ∃ v, t.rest = .ret v ∧ (t.ticket, v) ∈ recorded

/-- The threads that hold the lock are `readers` ones for reading, or a single one for writing
if `writing` says so. -/
structure HeldBy (threads : Client → Option (Thread (LockCmd C) (LockCmd.Answer R) Op Val))
    (readers : ℕ) (writing : Bool) : Prop where
  readers : ∃ holders : Finset Client, holders.card = readers ∧
    ∀ i, i ∈ holders ↔ Holding mode .read (threads i)
  writer : writing = true ↔ ∃ i, Holding mode .write (threads i)
  alone : ∀ i j m, Holding mode .write (threads i) → Holding mode m (threads j) → i = j

/-- The lock is held as it says, and the state behind it, unless a writer holds the lock, is
that after the operations that have given the lock back, starting from `s₀`. -/
structure Guarded (s₀ : σ) (cfg : LockConfig Client C R σ Op Val) : Prop where
  held : HeldBy mode cfg.threads cfg.shared.readers cfg.shared.writing
  stage : ∀ i t, cfg.threads i = some t →
    Stage mode body exec cfg.shared.inner (final (lockSpec body exec) (releases cfg.history) s₀)
      (outcomes (lockSpec body exec) (releases cfg.history) s₀) t
  current : cfg.shared.writing = false →
    cfg.shared.inner = final (lockSpec body exec) (releases cfg.history) s₀
  returned : ∀ n op v, .ret n op v ∈ cfg.history →
    (n, v) ∈ outcomes (lockSpec body exec) (releases cfg.history) s₀

end

theorem releases_concat
    (history : List (Event Client (LockCmd C) (LockCmd.Answer R) Op Val))
    (e : Event Client (LockCmd C) (LockCmd.Answer R) Op Val) :
  releases (history ++ [e])
    = releases history ++ (Event.pointed LockCmd.isRelease e).toList
  := by
  rw [releases, List.filterMap_append, List.filterMap_cons]
  cases Event.pointed LockCmd.isRelease e <;> rfl

variable {mode : Op → LockMode} {body : Op → Prog C R Val} {exec : (c : C) → σ → R c × σ}

theorem not_holding_none (m : LockMode) :
  ¬ Holding mode m (none : Option (Thread (LockCmd C) (LockCmd.Answer R) Op Val))
  := by
  rintro ⟨n, op, p, h, -⟩
  cases h

theorem not_holding_withLock (m m' : LockMode) (n : ℕ) (op : Op) (p : Prog C R Val) :
  ¬ Holding mode m (some ⟨n, op, p.withLock m'⟩)
  := by
  rintro ⟨n', op', p', h, -⟩
  apply Prog.held_ne_withLock m m' p' p
  apply (Thread.mk.inj (Option.some.inj h)).2.2.symm

theorem not_holding_ret (m : LockMode) (n : ℕ) (op : Op) (v : Val) :
  ¬ Holding (C := C) (R := R) mode m (some ⟨n, op, .ret v⟩)
  := by
  rintro ⟨n', op', p', h, -⟩
  apply Prog.held_ne_ret m p' v
  apply (Thread.mk.inj (Option.some.inj h)).2.2.symm

theorem holding_held_iff (m : LockMode) (n : ℕ) (op : Op) (p : Prog C R Val) :
  Holding mode m (some ⟨n, op, p.held (mode op)⟩) ↔ mode op = m
  := by
  constructor
  · rintro ⟨n', op', p', h, hm⟩
    rw [(Thread.mk.inj (Option.some.inj h)).2.1, hm]
  · rintro rfl
    exact ⟨n, op, p, rfl, rfl⟩

/-- A program that holds the lock is about to give it back or to issue a command. -/
theorem Prog.held_eq_act {m : LockMode} {p : Prog C R Val} {c : LockCmd C}
    {next : c.Answer R → Prog (LockCmd C) (LockCmd.Answer R) Val}
    (h : p.held m = .act c next) :
  (∃ v, p = .ret v ∧ c = .release m) ∨ ∃ c' next', p = .act c' next' ∧ c = .inner c'
  := by
  cases p with
  | ret v =>
      left
      use v, rfl
      rw [held_ret] at h
      apply (Prog.act.inj h).1.symm
  | act c' next' =>
      right
      use c', next', rfl
      rw [held_act] at h
      apply (Prog.act.inj h).1.symm

namespace HeldBy

variable {threads threads' : Client → Option (Thread (LockCmd C) (LockCmd.Answer R) Op Val)}
  {readers : ℕ} {writing : Bool}

/-- Only which threads hold the lock matters. -/
theorem congr (h : HeldBy mode threads readers writing)
    (same : ∀ m i, Holding mode m (threads' i) ↔ Holding mode m (threads i)) :
  HeldBy mode threads' readers writing
  := by
  constructor
  case readers =>
    simp only [same]
    apply h.readers
  case writer =>
    simp only [same]
    apply h.writer
  case alone =>
    simp only [same]
    apply h.alone

/-- A thread that holds the lock for reading is not one that holds it for writing. -/
theorem not_writing (h : HeldBy mode threads readers writing) {i : Client}
    (hi : Holding mode .read (threads i)) :
  writing = false
  := by
  apply Bool.eq_false_iff.mpr
  intro hw
  obtain ⟨j, hj⟩ := h.writer.mp hw
  obtain rfl := h.alone j i _ hj hi
  obtain ⟨n, op, p, ht, hm⟩ := hj
  obtain ⟨n', op', p', ht', hm'⟩ := hi
  obtain ⟨-, rfl, -⟩ := Thread.mk.inj (Option.some.inj (ht.symm.trans ht'))
  rw [hm] at hm'
  cases hm'

/-- Nobody holds the lock if it is free. -/
theorem not_holding_of_free (h : HeldBy mode threads 0 false) (m : LockMode) (i : Client) :
  ¬ Holding mode m (threads i)
  := by
  intro hi
  cases m with
  | read =>
      obtain ⟨holders, hcard, hmem⟩ := h.readers
      apply absurd ((hmem i).mpr hi)
      rw [Finset.card_eq_zero.mp hcard]
      apply Finset.notMem_empty
  | write => cases h.writer.mpr ⟨i, hi⟩

variable [DecidableEq Client] {i : Client}
  {t : Option (Thread (LockCmd C) (LockCmd.Answer R) Op Val)}

theorem holding_update_iff (m : LockMode) (j : Client) :
  Holding mode m (Function.update threads i t j)
    ↔ (j = i ∧ Holding mode m t) ∨ (j ≠ i ∧ Holding mode m (threads j))
  := by
  by_cases hji : j = i
  · subst hji
    simp
  · simp [hji]

/-- A thread that still holds the lock, or still does not, leaves the lock as it is. -/
theorem update_same (h : HeldBy mode threads readers writing)
    (same : ∀ m, Holding mode m t ↔ Holding mode m (threads i)) :
  HeldBy mode (Function.update threads i t) readers writing
  := by
  apply h.congr
  intro m j
  rw [holding_update_iff, same]
  by_cases hji : j = i
  · subst hji
    simp
  · simp [hji]

theorem acquireRead (h : HeldBy mode threads readers false)
    (before : ∀ m, ¬ Holding mode m (threads i)) (after : ∀ m, Holding mode m t ↔ m = .read) :
  HeldBy mode (Function.update threads i t) (readers + 1) false
  := by
  have nobody : ∀ j, ¬ Holding mode .write (Function.update threads i t j) := by
    intro j hj
    rcases holding_update_iff _ _ |>.mp hj with ⟨-, hj⟩ | ⟨-, hj⟩
    · cases (after _).mp hj
    · cases h.writer.mpr ⟨j, hj⟩
  constructor
  case readers =>
    obtain ⟨holders, hcard, hmem⟩ := h.readers
    use insert i holders
    constructor
    · rw [Finset.card_insert_of_notMem, hcard]
      intro hi
      apply before _ ((hmem i).mp hi)
    · intro j
      rw [holding_update_iff, Finset.mem_insert, hmem, after]
      by_cases hji : j = i
      · simp [hji]
      · simp [hji]
  case writer =>
    constructor
    · intro hw
      cases hw
    · rintro ⟨j, hj⟩
      apply absurd hj (nobody j)
  case alone =>
    intro j _ _ hj
    apply absurd hj (nobody j)

theorem acquireWrite (h : HeldBy mode threads 0 false)
    (after : ∀ m, Holding mode m t ↔ m = .write) :
  HeldBy mode (Function.update threads i t) 0 true
  := by
  have only : ∀ m j, Holding mode m (Function.update threads i t j) → j = i ∧ m = .write := by
    intro m j hj
    rcases holding_update_iff _ _ |>.mp hj with ⟨hji, hj⟩ | ⟨-, hj⟩
    · exact ⟨hji, (after m).mp hj⟩
    · apply absurd hj (h.not_holding_of_free m j)
  constructor
  case readers =>
    use ∅, Finset.card_empty
    intro j
    apply iff_of_false (Finset.notMem_empty j)
    intro hj
    cases (only _ j hj).2
  case writer =>
    apply iff_of_true rfl
    use i
    rw [holding_update_iff, after]
    simp
  case alone =>
    intro j k m hj hk
    rw [(only _ j hj).1, (only _ k hk).1]

theorem releaseRead (h : HeldBy mode threads readers writing)
    (before : Holding mode .read (threads i)) (after : ∀ m, ¬ Holding mode m t) :
  HeldBy mode (Function.update threads i t) (readers - 1) writing
  := by
  have others : ∀ m j, Holding mode m (Function.update threads i t j)
      ↔ j ≠ i ∧ Holding mode m (threads j) := by
    intro m j
    simp [holding_update_iff, after]
  have free := h.not_writing before
  subst free
  constructor
  case readers =>
    obtain ⟨holders, hcard, hmem⟩ := h.readers
    use holders.erase i
    constructor
    · rw [Finset.card_erase_of_mem ((hmem i).mpr before), hcard]
    · intro j
      rw [others, Finset.mem_erase, hmem]
  case writer =>
    constructor
    · intro hw
      cases hw
    · rintro ⟨j, hj⟩
      apply h.writer.mpr ⟨j, ((others _ j).mp hj).2⟩
  case alone =>
    intro j k m hj hk
    apply h.alone j k m ((others _ j).mp hj).2 ((others _ k).mp hk).2

theorem releaseWrite (h : HeldBy mode threads readers writing)
    (before : Holding mode .write (threads i)) (after : ∀ m, ¬ Holding mode m t) :
  HeldBy mode (Function.update threads i t) readers false
  := by
  have nobody : ∀ m j, ¬ Holding mode m (Function.update threads i t j) := by
    intro m j hj
    rcases holding_update_iff _ _ |>.mp hj with ⟨-, hj⟩ | ⟨hji, hj⟩
    · apply after m hj
    · apply hji (h.alone i j m before hj).symm
  constructor
  case readers =>
    obtain ⟨holders, hcard, hmem⟩ := h.readers
    use holders, hcard
    intro j
    apply iff_of_false _ (nobody _ j)
    intro hj
    have hw := h.not_writing ((hmem j).mp hj)
    rw [h.writer.mpr ⟨i, before⟩] at hw
    cases hw
  case writer =>
    constructor
    · intro hw
      cases hw
    · rintro ⟨j, hj⟩
      apply absurd hj (nobody _ j)
  case alone =>
    intro j _ _ hj
    apply absurd hj (nobody _ j)

end HeldBy

/-! ### What the steps keep -/

namespace Stage

variable {inner inner' abstract abstract' : σ} {recorded recorded' : List (ℕ × Val)}
  {t : Thread (LockCmd C) (LockCmd.Answer R) Op Val}

/-- What is recorded may grow. -/
theorem mono (h : Stage mode body exec inner abstract recorded t) (hsub : recorded ⊆ recorded') :
  Stage mode body exec inner abstract recorded' t
  := by
  rcases h with h | h | ⟨v, hrest, hmem⟩
  · exact .inl h
  · exact .inr (.inl h)
  · exact .inr (.inr ⟨v, hrest, hsub hmem⟩)

/-- Where a thread is that does not hold the lock has nothing to do with the states. -/
theorem of_not_holding (h : Stage mode body exec inner abstract recorded t)
    (not : ¬ Holding mode (mode t.op) (some t)) :
  Stage mode body exec inner' abstract' recorded t
  := by
  rcases h with h | ⟨p, hrest, -⟩ | h
  · exact .inl h
  · apply absurd _ not
    exact ⟨t.ticket, t.op, p, congrArg some (by rw [← hrest]), rfl⟩
  · exact .inr (.inr h)

/-- A thread that is about to take the lock has not taken it. -/
theorem of_acquire {n : ℕ} {op : Op} {m : LockMode}
    {next : Unit → Prog (LockCmd C) (LockCmd.Answer R) Val}
    (h : Stage mode body exec inner abstract recorded ⟨n, op, .act (.acquire m) next⟩) :
  m = mode op ∧ next () = (body op).held (mode op)
  := by
  dsimp only [Stage] at h
  rcases h with hrest | ⟨p, hrest, -⟩ | ⟨v, hrest, -⟩
  · rw [Prog.withLock_eq] at hrest
    obtain ⟨hc, hnext⟩ := Prog.act.inj hrest
    obtain rfl := LockCmd.acquire.inj hc
    exact ⟨rfl, congrFun (eq_of_heq hnext) ()⟩
  · rcases Prog.held_eq_act hrest.symm with ⟨v, -, hc⟩ | ⟨c', next', -, hc⟩
    · cases hc
    · cases hc
  · cases hrest

/-- A thread that is about to give the lock back has done what the operation does. -/
theorem of_release {n : ℕ} {op : Op} {m : LockMode}
    {next : Unit → Prog (LockCmd C) (LockCmd.Answer R) Val}
    (h : Stage mode body exec inner abstract recorded ⟨n, op, .act (.release m) next⟩) :
  m = mode op ∧ Prog.act (.release m) next = (Prog.ret (lockSpec body exec op abstract).1).held m ∧
    inner = (lockSpec body exec op abstract).2 ∧
    next () = .ret (lockSpec body exec op abstract).1
  := by
  dsimp only [Stage] at h
  rcases h with hrest | ⟨p, hrest, hrun, -⟩ | ⟨v, hrest, -⟩
  · rw [Prog.withLock_eq] at hrest
    cases (Prog.act.inj hrest).1
  · rcases Prog.held_eq_act hrest.symm with ⟨v, rfl, hc⟩ | ⟨c', next', -, hc⟩
    · obtain rfl := LockCmd.release.inj hc
      rw [Prog.run_ret] at hrun
      rw [← hrun]
      use rfl, hrest, rfl
      rw [Prog.held_ret] at hrest
      apply congrFun (eq_of_heq (Prog.act.inj hrest).2) ()
    · cases hc
  · cases hrest

/-- A thread that is about to issue a command is left with what remains to do after it. -/
theorem of_inner {n : ℕ} {op : Op} {c : C}
    {next : R c → Prog (LockCmd C) (LockCmd.Answer R) Val}
    (h : Stage mode body exec inner abstract recorded ⟨n, op, .act (.inner c) next⟩) :
  ∃ p : R c → Prog C R Val, Prog.act (LockCmd.inner c) next = (Prog.act c p).held (mode op) ∧
    next = (fun r => (p r).held (mode op)) ∧
    (p (exec c inner).1).run exec (exec c inner).2 = lockSpec body exec op abstract ∧
    (mode op = .read → (exec c inner).2 = inner ∧
      (p (exec c inner).1).Issues fun c => ∀ s, (exec c s).2 = s)
  := by
  dsimp only [Stage] at h
  rcases h with hrest | ⟨p, hrest, hrun, hkeeps⟩ | ⟨v, hrest, -⟩
  · rw [Prog.withLock_eq] at hrest
    cases (Prog.act.inj hrest).1
  · rcases Prog.held_eq_act hrest.symm with ⟨v, -, hc⟩ | ⟨c', p', rfl, hc⟩
    · cases hc
    · obtain rfl := LockCmd.inner.inj hc
      use p', hrest
      constructor
      · rw [Prog.held_act] at hrest
        apply eq_of_heq (Prog.act.inj hrest).2
      · use hrun
        intro hm
        exact ⟨(hkeeps hm).1 inner, (hkeeps hm).2 _⟩
  · cases hrest

end Stage

namespace Guarded

variable {s₀ : σ} {cfg : LockConfig Client C R σ Op Val}

theorem init :
  Guarded mode body exec s₀ (Config.init ⟨s₀, 0, false⟩ : LockConfig Client C R σ Op Val)
  := by
  constructor
  case held =>
    constructor
    case readers =>
      use ∅, Finset.card_empty
      intro i
      apply iff_of_false (Finset.notMem_empty i) (not_holding_none _)
    case writer =>
      constructor
      · intro hw
        cases hw
      · rintro ⟨i, hi⟩
        apply absurd hi (not_holding_none _)
    case alone =>
      intro i _ _ hi
      apply absurd hi (not_holding_none _)
  case stage =>
    intro i t ht
    cases ht
  case current =>
    intro _
    rfl
  case returned =>
    intro n op v hv
    cases hv

variable [DecidableEq Client]

theorem called (h : Guarded mode body exec s₀ cfg) {i : Client} (idle : cfg.threads i = none)
    (op : Op) :
  Guarded mode body exec s₀ (cfg.called i op ((body op).withLock (mode op)))
  := by
  have same : releases (cfg.called i op ((body op).withLock (mode op))).history
      = releases cfg.history := by
    rw [Config.called, releases_concat]
    apply List.append_nil
  constructor
  case held =>
    apply h.held.update_same
    intro m
    rw [idle]
    apply iff_of_false (not_holding_withLock _ _ _ _ _) (not_holding_none _)
  case stage =>
    intro j t ht
    rw [same]
    rcases of_update_eq_some ht with ⟨-, ht⟩ | ⟨-, ht⟩
    · obtain rfl := Option.some.inj ht
      left
      rfl
    · apply h.stage j t ht
  case current =>
    rw [same]
    apply h.current
  case returned =>
    rw [same]
    intro n op' v hv
    apply h.returned n op' v
    simpa [Config.called] using hv

theorem ret (h : Guarded mode body exec s₀ cfg) {i : Client} {n : ℕ} {op : Op} {v : Val}
    (run : cfg.threads i = some ⟨n, op, .ret v⟩) :
  Guarded mode body exec s₀ (cfg.returned i ⟨n, op, .ret v⟩ v)
  := by
  have same : releases (cfg.returned i ⟨n, op, .ret v⟩ v).history = releases cfg.history := by
    rw [Config.returned, releases_concat]
    apply List.append_nil
  constructor
  case held =>
    apply h.held.update_same
    intro m
    rw [run]
    apply iff_of_false (not_holding_none _) (not_holding_ret _ _ _ _)
  case stage =>
    intro j t ht
    rw [same]
    rcases of_update_eq_some ht with ⟨-, ht⟩ | ⟨-, ht⟩
    · cases ht
    · apply h.stage j t ht
  case current =>
    rw [same]
    apply h.current
  case returned =>
    rw [same]
    intro n' op' v' hv
    simp only [Config.returned, List.mem_append, List.mem_singleton] at hv
    rcases hv with hv | hv
    · apply h.returned n' op' v' hv
    · obtain ⟨rfl, rfl, rfl⟩ := Event.ret.inj hv
      rcases h.stage i _ run with hrest | ⟨p, hrest, -⟩ | ⟨v'', hrest, hmem⟩
      · cases hrest
      · apply absurd hrest.symm (Prog.held_ne_ret _ _ _)
      · obtain rfl := Prog.ret.inj hrest
        apply hmem

/-- Only giving the lock back is recorded. -/
theorem releases_acted (cfg : LockConfig Client C R σ Op Val) (i : Client) (n : ℕ) (op : Op)
    (rest : Prog (LockCmd C) (LockCmd.Answer R) Val) {c : LockCmd C} (r : c.Answer R)
    (hc : c.isRelease = false) (s : Locked σ) (p : Prog (LockCmd C) (LockCmd.Answer R) Val) :
  releases (cfg.acted i ⟨n, op, rest⟩ c r s p).history = releases cfg.history
  := by
  rw [Config.acted, releases_concat, Event.pointed, if_neg (by simp [hc])]
  apply List.append_nil

/-- A return in the history after a command was there before. -/
theorem ret_mem_acted {cfg : LockConfig Client C R σ Op Val} {i : Client}
    {t : Thread (LockCmd C) (LockCmd.Answer R) Op Val} {c : LockCmd C} {r : c.Answer R}
    {s : Locked σ} {p : Prog (LockCmd C) (LockCmd.Answer R) Val} {n : ℕ} {op : Op} {v : Val}
    (h : .ret n op v ∈ (cfg.acted i t c r s p).history) :
  .ret n op v ∈ cfg.history
  := by
  simpa [Config.acted] using h

variable {i : Client} {n : ℕ} {op : Op}

theorem acquired (h : Guarded mode body exec s₀ cfg)
    (readers : ∀ op, mode op = .read → (body op).Issues fun c => ∀ s, (exec c s).2 = s)
    {m : LockMode} {next : Unit → Prog (LockCmd C) (LockCmd.Answer R) Val}
    (run : cfg.threads i = some ⟨n, op, .act (.acquire m) next⟩) {s : Locked σ}
    (hexec : LockCmd.exec exec (.acquire m) cfg.shared = some ((), s)) :
  Guarded mode body exec s₀
    (cfg.acted i ⟨n, op, .act (.acquire m) next⟩ (.acquire m) () s (next ()))
  := by
  obtain ⟨rfl, hnext⟩ := (h.stage i _ run).of_acquire
  have same := releases_acted cfg i n op (.act (.acquire (mode op)) next)
    (c := .acquire (mode op)) () rfl s (next ())
  have before : ∀ m, ¬ Holding mode m (cfg.threads i) := by
    intro m
    rw [run]
    rintro ⟨n', op', p', ht, -⟩
    rcases Prog.held_eq_act (Thread.mk.inj (Option.some.inj ht)).2.2.symm with
      ⟨v, -, hc⟩ | ⟨c', next', -, hc⟩
    · cases hc
    · cases hc
  have after : ∀ m, Holding mode m (some ⟨n, op, next ()⟩) ↔ m = mode op := by
    intro m
    rw [hnext, holding_held_iff, eq_comm]
  -- whoever gets the lock finds the state after the operations that gave it back
  have free : cfg.shared.writing = false ∧ s.inner = cfg.shared.inner ∧
      (s.writing = false → cfg.shared.writing = false) ∧
      HeldBy mode (Function.update cfg.threads i (some ⟨n, op, next ()⟩)) s.readers s.writing := by
    have held := h.held
    cases hmode : mode op with
    | read =>
        rw [hmode] at hexec after
        obtain ⟨hw, hs⟩ := Option.ite_none_left_eq_some.mp hexec
        obtain rfl := (Prod.mk.inj (Option.some.inj hs)).2
        have hfree := Bool.eq_false_iff.mpr hw
        rw [hfree] at held
        dsimp only
        rw [hfree]
        exact ⟨rfl, rfl, id, held.acquireRead before after⟩
    | write =>
        rw [hmode] at hexec after
        obtain ⟨hw, hs⟩ := Option.ite_none_left_eq_some.mp hexec
        obtain rfl := (Prod.mk.inj (Option.some.inj hs)).2
        simp only [Bool.or_eq_true, bne_iff_ne, ne_eq, not_or, Decidable.not_not] at hw
        have hfree := Bool.eq_false_iff.mpr hw.1
        rw [hfree, hw.2] at held
        dsimp only
        rw [hw.2]
        exact ⟨hfree, rfl, fun _ => hfree, held.acquireWrite after⟩
  obtain ⟨hfree, hinner, hcurrent, hheld⟩ := free
  constructor
  case held => apply hheld
  case stage =>
    intro j t ht
    rw [same]
    change Stage mode body exec s.inner _ _ t
    rw [hinner]
    rcases of_update_eq_some ht with ⟨-, ht⟩ | ⟨-, ht⟩
    · obtain rfl := Option.some.inj ht
      right
      left
      use body op, hnext
      constructor
      · rw [h.current hfree]
        rfl
      · apply readers op
    · apply h.stage j t ht
  case current =>
    intro hw
    rw [same]
    apply hinner.trans (h.current (hcurrent hw))
  case returned =>
    intro n' op' v hv
    rw [same]
    apply h.returned n' op' v (ret_mem_acted hv)

theorem issued (h : Guarded mode body exec s₀ cfg) {c : C}
    {next : R c → Prog (LockCmd C) (LockCmd.Answer R) Val}
    (run : cfg.threads i = some ⟨n, op, .act (.inner c) next⟩) :
  Guarded mode body exec s₀
    (cfg.acted i ⟨n, op, .act (.inner c) next⟩ (.inner c) (exec c cfg.shared.inner).1
      { cfg.shared with inner := (exec c cfg.shared.inner).2 } (next (exec c cfg.shared.inner).1))
  := by
  obtain ⟨p, hheld, hnext, hrun, hkeeps⟩ := (h.stage i _ run).of_inner
  subst hnext
  have holding : ∀ m, Holding mode m (cfg.threads i) ↔ mode op = m := by
    intro m
    rw [run, hheld, holding_held_iff]
  have same := releases_acted cfg i n op (.act (.inner c) fun r => (p r).held (mode op))
    (c := .inner c) (exec c cfg.shared.inner).1 rfl
    { cfg.shared with inner := (exec c cfg.shared.inner).2 }
    ((p (exec c cfg.shared.inner).1).held (mode op))
  constructor
  case held =>
    apply h.held.update_same
    intro m
    rw [holding, holding_held_iff]
  case stage =>
    intro j t ht
    rw [same]
    rcases of_update_eq_some ht with ⟨-, ht⟩ | ⟨hji, ht⟩
    · obtain rfl := Option.some.inj ht
      right
      left
      use p (exec c cfg.shared.inner).1, rfl, hrun
      intro hm
      apply (hkeeps hm).2
    · cases hm : mode op with
      | read =>
          change Stage mode body exec (exec c cfg.shared.inner).2 _ _ t
          rw [(hkeeps hm).1]
          apply h.stage j t ht
      | write =>
          apply (h.stage j t ht).of_not_holding
          rw [← ht]
          intro hj
          apply hji (h.held.alone i j _ ((holding _).mpr hm) hj).symm
  case current =>
    intro hw
    rw [same]
    have hm : mode op = .read := by
      cases hm : mode op with
      | read => rfl
      | write => cases (h.held.writer.mpr ⟨i, (holding _).mpr hm⟩).symm.trans hw
    apply (hkeeps hm).1.trans (h.current hw)
  case returned =>
    intro n' op' v hv
    rw [same]
    apply h.returned n' op' v (ret_mem_acted hv)

theorem released (h : Guarded mode body exec s₀ cfg) {m : LockMode}
    {next : Unit → Prog (LockCmd C) (LockCmd.Answer R) Val}
    (run : cfg.threads i = some ⟨n, op, .act (.release m) next⟩) {s : Locked σ}
    (hexec : LockCmd.exec exec (.release m) cfg.shared = some ((), s)) :
  Guarded mode body exec s₀
    (cfg.acted i ⟨n, op, .act (.release m) next⟩ (.release m) () s (next ()))
  := by
  obtain ⟨rfl, hheld, hinner, hnext⟩ := (h.stage i _ run).of_release
  have holding : ∀ m, Holding mode m (cfg.threads i) ↔ mode op = m := by
    intro m
    rw [run, hheld, holding_held_iff]
  have after : ∀ m, ¬ Holding mode m (some ⟨n, op, next ()⟩) := by
    intro m
    rw [hnext]
    apply not_holding_ret
  have grown : releases (cfg.acted i ⟨n, op, .act (.release (mode op)) next⟩
      (.release (mode op)) () s (next ())).history = releases cfg.history ++ [(n, op)] := by
    rw [Config.acted, releases_concat]
    rfl
  have hs : s.inner = cfg.shared.inner ∧
      HeldBy mode (Function.update cfg.threads i (some ⟨n, op, next ()⟩)) s.readers s.writing := by
    cases hmode : mode op with
    | read =>
        rw [hmode] at hexec
        obtain rfl := (Prod.mk.inj (Option.some.inj hexec)).2
        exact ⟨rfl, h.held.releaseRead ((holding _).mpr hmode) after⟩
    | write =>
        rw [hmode] at hexec
        obtain rfl := (Prod.mk.inj (Option.some.inj hexec)).2
        exact ⟨rfl, h.held.releaseWrite ((holding _).mpr hmode) after⟩
  -- the state behind the lock is that after the operations including this one
  have hfinal : final (lockSpec body exec) (releases cfg.history ++ [(n, op)]) s₀
      = cfg.shared.inner := by
    rw [final_append, hinner]
    rfl
  have hvalues : outcomes (lockSpec body exec) (releases cfg.history ++ [(n, op)]) s₀
      = outcomes (lockSpec body exec) (releases cfg.history) s₀ ++ [(n, (lockSpec body exec op
        (final (lockSpec body exec) (releases cfg.history) s₀)).1)] := by
    rw [outcomes_append]
    rfl
  have hsub : outcomes (lockSpec body exec) (releases cfg.history) s₀
      ⊆ outcomes (lockSpec body exec) (releases cfg.history ++ [(n, op)]) s₀ := by
    rw [hvalues]
    apply List.subset_append_left
  constructor
  case held => apply hs.2
  case stage =>
    intro j t ht
    rw [grown, hfinal]
    change Stage mode body exec s.inner _ _ t
    rw [hs.1]
    rcases of_update_eq_some ht with ⟨-, ht⟩ | ⟨hji, ht⟩
    · obtain rfl := Option.some.inj ht
      right
      right
      refine ⟨_, hnext, ?_⟩
      rw [hvalues]
      apply List.mem_append_right _ (List.mem_singleton_self _)
    · have hstage := (h.stage j t ht).mono hsub
      cases hm : mode op with
      | read =>
          -- other readers see the state they saw
          rw [← h.current (h.held.not_writing ((holding _).mpr hm))] at hstage
          apply hstage
      | write =>
          apply hstage.of_not_holding
          rw [← ht]
          intro hj
          apply hji (h.held.alone i j _ ((holding _).mpr hm) hj).symm
  case current =>
    intro _
    rw [grown, hfinal]
    apply hs.1
  case returned =>
    intro n' op' v hv
    rw [grown]
    apply hsub (h.returned n' op' v (ret_mem_acted hv))

theorem of_reaches
    (readers : ∀ op, mode op = .read → (body op).Issues fun c => ∀ s, (exec c s).2 = s)
    {P : LockConfig Client C R σ Op Val → Turn Client Op Empty → Prop}
    (h : (lockMachine mode body exec).Reaches P (Config.init ⟨s₀, 0, false⟩) cfg) :
  Guarded mode body exec s₀ cfg
  := by
  apply h.invariant (Guarded mode body exec s₀) init
  rintro cfg l cfg' ih - hs
  cases hs with
  | call idle => apply ih.called idle
  | ret run => apply ih.ret run
  | env hexec => cases ‹Empty›
  | act run hexec =>
      rename_i n op c next r s
      cases c with
      | acquire m => apply ih.acquired readers run hexec
      | release m => apply ih.released run hexec
      | inner c =>
          obtain ⟨rfl, rfl⟩ := Prod.mk.inj (Option.some.inj hexec)
          apply ih.issued run

end Guarded

/-- Operations under a reader-writer lock are atomic: there is a sequential order of them in
which they return what they returned, and which leads to the state behind the lock unless a
writer holds it. -/
theorem lock_linearizes [DecidableEq Client]
    (readers : ∀ op, mode op = .read → (body op).Issues fun c => ∀ s, (exec c s).2 = s)
    {P : LockConfig Client C R σ Op Val → Turn Client Op Empty → Prop} {s₀ : σ}
    {cfg : LockConfig Client C R σ Op Val}
    (h : (lockMachine mode body exec).Reaches P (Config.init ⟨s₀, 0, false⟩) cfg) :
  Linearizes cfg.history (releases cfg.history) ∧
    (∀ n op v, .ret n op v ∈ cfg.history →
      (n, v) ∈ outcomes (lockSpec body exec) (releases cfg.history) s₀) ∧
    (cfg.shared.writing = false →
      cfg.shared.inner = final (lockSpec body exec) (releases cfg.history) s₀)
  := by
  have guarded := Guarded.of_reaches readers h
  use linearizes_of_onePoint h fun op => Prog.onePoint_withLock (mode op) (body op)
  exact ⟨guarded.returned, guarded.current⟩

/-- Operations under a reader-writer lock take effect when they give the lock back. -/
theorem lock_effectiveAtEnd {Client : Type} [DecidableEq Client]
    (readers : ∀ op, mode op = .read → (body op).Issues fun c => ∀ s, (exec c s).2 = s) (s₀ : σ) :
  EffectiveAtEnd Client (lockMachine mode body exec) LockCmd.isRelease (lockSpec body exec)
    ⟨s₀, 0, false⟩ s₀
  := by
  constructor
  case ends =>
    intro op
    apply Prog.endsAt_withLock
  case returns =>
    intro cfg h
    apply (lock_linearizes readers h).2.1

/-- The lock is free when no operation is in progress. -/
theorem writing_of_quiescent [DecidableEq Client]
    (readers : ∀ op, mode op = .read → (body op).Issues fun c => ∀ s, (exec c s).2 = s)
    {P : LockConfig Client C R σ Op Val → Turn Client Op Empty → Prop} {s₀ : σ}
    {cfg : LockConfig Client C R σ Op Val}
    (h : (lockMachine mode body exec).Reaches P (Config.init ⟨s₀, 0, false⟩) cfg)
    (quiescent : cfg.Quiescent) :
  cfg.shared.writing = false
  := by
  apply Bool.eq_false_iff.mpr
  intro hw
  obtain ⟨i, hi⟩ := (Guarded.of_reaches readers h).held.writer.mp hw
  rw [quiescent i] at hi
  apply not_holding_none _ hi

/-! ### Progress -/

theorem Prog.Within.held {p : Prog C R Val} {n : ℕ} (h : p.Within n) (m : LockMode) :
  (p.held m).Within (n + 1)
  := by
  induction p generalizing n with
  | ret v =>
      intro _
      cases n <;> trivial
  | act c next ih =>
      cases n with
      | zero => cases h
      | succ n =>
          intro r
          exact ih r (h r)

/-- Taking the lock and giving it back are two commands more. -/
theorem Prog.Within.withLock {p : Prog C R Val} {n : ℕ} (h : p.Within n) (m : LockMode) :
  (p.withLock m).Within (n + 2)
  := fun _ => h.held m

/-- The client waits for the lock. -/
def Waits (cfg : LockConfig Client C R σ Op Val) (i : Client) : Prop :=
  ∃ n op m next, cfg.threads i = some ⟨n, op, .act (.acquire m) next⟩

/-- A thread that holds the lock does not wait for it. -/
theorem not_holding_of_waits {cfg : LockConfig Client C R σ Op Val} {i : Client}
    (h : Waits cfg i) (m : LockMode) :
  ¬ Holding mode m (cfg.threads i)
  := by
  rintro ⟨n, op, p, hp, -⟩
  obtain ⟨n', op', m', next, ht⟩ := h
  obtain ⟨-, -, hrest⟩ := Thread.mk.inj (Option.some.inj (hp.symm.trans ht))
  rcases Prog.held_eq_act hrest with ⟨v, -, hc⟩ | ⟨c, next', -, hc⟩ <;> cases hc

section

variable [DecidableEq Client]

/-- An operation that has been given the lock can go on. -/
theorem ready_of_not_waits {s₀ : σ} {cfg : LockConfig Client C R σ Op Val}
    (guarded : Guarded mode body exec s₀ cfg) {i : Client}
    {t : Thread (LockCmd C) (LockCmd.Answer R) Op Val} (ht : cfg.threads i = some t)
    (hi : ¬ Waits cfg i) :
  (lockMachine mode body exec).Ready cfg i
  := by
  obtain ⟨n, op, rest⟩ := t
  rcases guarded.stage i _ ht with hrest | ⟨p, hrest, -, -⟩ | ⟨v, hrest, -⟩
  · obtain rfl : rest = (body op).withLock (mode op) := hrest
    exact absurd ⟨n, op, _, _, ht⟩ hi
  · obtain rfl : rest = p.held (mode op) := hrest
    cases p with
    | ret v =>
        apply Machine.ready_of_act ht
        cases mode op <;> rfl
    | act c next =>
        apply Machine.ready_of_act ht
        rfl
  · obtain rfl : rest = .ret v := hrest
    exact Machine.ready_of_ret ht

/-- While operations are in progress, one that has been given the lock can go on, or the lock is
free, so that it can be given to any of those that wait for it. -/
theorem lock_progress
    (readers : ∀ op, mode op = .read → (body op).Issues fun c => ∀ s, (exec c s).2 = s)
    {P : LockConfig Client C R σ Op Val → Turn Client Op Empty → Prop} {s₀ : σ}
    {cfg : LockConfig Client C R σ Op Val}
    (h : (lockMachine mode body exec).Reaches P (Config.init ⟨s₀, 0, false⟩) cfg) :
  (∃ i, ¬ Waits cfg i ∧ (lockMachine mode body exec).Ready cfg i) ∨
    ∀ i, (cfg.threads i).isSome → (lockMachine mode body exec).Ready cfg i
  := by
  have guarded := Guarded.of_reaches readers h
  by_cases waiting : ∀ i, (cfg.threads i).isSome → Waits cfg i
  · right
    -- nobody holds the lock
    have nobody : ∀ i m, ¬ Holding mode m (cfg.threads i) := by
      intro i m hi
      apply not_holding_of_waits (waiting i _) m hi
      obtain ⟨n, op, p, ht, -⟩ := hi
      rw [ht]
      rfl
    have noReader : cfg.shared.readers = 0 := by
      obtain ⟨holders, hcard, hmem⟩ := guarded.held.readers
      rw [← hcard, Finset.card_eq_zero]
      apply Finset.eq_empty_of_forall_notMem
      intro i hi
      exact nobody i _ ((hmem i).mp hi)
    have noWriter : cfg.shared.writing = false := by
      apply Bool.eq_false_iff.mpr
      intro hw
      obtain ⟨i, hi⟩ := guarded.held.writer.mp hw
      exact nobody i _ hi
    intro i hi
    obtain ⟨n, op, m, next, ht⟩ := waiting i hi
    apply Machine.ready_of_act ht
    cases m <;> simp [lockMachine, LockCmd.exec, noReader, noWriter]
  · left
    obtain ⟨i, hi⟩ := not_forall.mp waiting
    obtain ⟨hi, hwaits⟩ := Classical.not_imp.mp hi
    obtain ⟨t, ht⟩ := Option.isSome_iff_exists.mp hi
    exact ⟨i, hwaits, ready_of_not_waits guarded ht hwaits⟩

end

end Atomic
