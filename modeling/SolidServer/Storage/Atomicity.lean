import SolidServer.Library.Moments
import SolidServer.Library.Runs
import SolidServer.Storage.Eviction

/-!
# What concurrent operations see

The last update of a key is what operations stored or deleted last, whoever evicts what.  In
every run a value that `get`, `has` or `entries` shows is that of the last update at a moment
of the operation, and has not expired then; for `entries` this is one moment for all values.  In
runs in which evictions delete only entries that have expired, what `get` and `has` do not show
is not there, or has expired, at that moment; and of what is there then, `entries` leaves out
only what has expired when it ends.
-/

open Text Atomic

namespace Storage

section

variable {Client σ : Type} (M : LawfulMap σ Str ExpiresWrapper)

/-- What an event does to the entry of a key, if it is an update of it: an eviction is not. -/
def updates (k : Str) : ExpiringEvent Client → Option (Option ExpiresWrapper)
  | .act _ _ (.set k' w) _ => if k' = k then some (some w) else none
  | .act _ op (.delete k') _ => if k' = k ∧ op = .delete k then some none else none
  | _ => none

/-- The entry that the updates of a key have left. -/
def lastEntry (s : World σ) (history : List (ExpiringEvent Client)) (k : Str) :
    Option ExpiresWrapper :=
  (Run.latest (updates k) history).getD (M.get s.source k)

/-- The value that the updates of a key have left, unless it has expired. -/
def shown (s : World σ) (cfg : ExpiringConfig Client σ) (k : Str) : Option Str :=
  (lastEntry M s cfg.history k).bind fun w =>
    if w.expiredAt cfg.shared.clock then none else some w.payload

/-- What an operation returned could be seen in `cfg`; if `exact`, it returned what could be seen
there, except that `entries` may leave out what has expired at `now`. -/
def Sees (s : World σ) (cfg : ExpiringConfig Client σ) (now : SystemTime) (exact : Prop) :
    ExpiringOp → ExpiringVal → Prop
  | .get k, val => ∃ r, val = .found (.ok r) ∧ (∀ v, r = some v → shown M s cfg k = some v) ∧
      (exact → r = shown M s cfg k)
  | .has k, val => ∃ b, val = .has (.ok b) ∧ (b = true → (shown M s cfg k).isSome) ∧
      (exact → b = (shown M s cfg k).isSome)
  | .entries, val => ∃ l, val = .listed (.ok l) ∧ (l.map Prod.fst).Nodup ∧
      (∀ k v, (k, v) ∈ l → shown M s cfg k = some v) ∧
      (exact → ∀ k w, lastEntry M s cfg.history k = some w → w.expiredAt now = false →
        (k, w.payload) ∈ l)
  | .set _ _, val => val = .stored (.ok ())
  | .setExpiring _ _ t, val => val = .stored (.ok ()) ∨
      (val = .stored (.error .alreadyExpired) ∧ ∃ t', t = some t' ∧ t' ≤ cfg.shared.clock)
  | .delete k, val => ∃ b, val = .deleted (.ok b) ∧
      (b = true → (lastEntry M s cfg.history k).isSome) ∧
      (exact → b = false → shown M s cfg k = none)
  | .sweep, val => val = .swept

/-- No turn that is allowed, other than that of a deletion, deletes an entry which has not
expired. -/
def EvictsExpired (P : ExpiringConfig Client σ → Turn Client ExpiringOp SystemTime → Prop) :
    Prop :=
  ∀ cfg l, P cfg l → evictionSafe M cfg l = true

/-- The source has entries that the updates have left; if `exact`, it has all that have not
expired. -/
structure Backed (s : World σ) (exact : Prop) (cfg : ExpiringConfig Client σ) : Prop where
  sound : ∀ k w, M.get cfg.shared.source k = some w → lastEntry M s cfg.history k = some w
  complete : exact → ∀ k w, lastEntry M s cfg.history k = some w →
    M.get cfg.shared.source k = some w ∨ w.expiredAt cfg.shared.clock = true

end

section

variable {Client σ : Type} {M : LawfulMap σ Str ExpiresWrapper}
  {s : World σ} {history : List (ExpiringEvent Client)}

theorem lastEntry_concat (e : ExpiringEvent Client) (k : Str) :
  lastEntry M s (history ++ [e]) k = (updates k e).getD (lastEntry M s history k)
  := by
  rw [lastEntry, Run.latest_concat, lastEntry]
  cases updates k e <;> rfl

variable {exact : Prop} {cfg : ExpiringConfig Client σ}

/-- What could be seen of what has not expired at some time could be seen of what has not expired
later. -/
theorem Sees.mono {now now' : SystemTime} (hnow : now ≤ now') {op : ExpiringOp}
    {val : ExpiringVal} (h : Sees M s cfg now exact op val) :
  Sees M s cfg now' exact op val
  := by
  cases op with
  | entries =>
      obtain ⟨l, hval, hnodup, hshown, hall⟩ := h
      refine ⟨l, hval, hnodup, hshown, ?_⟩
      intro hexact k w hw hlive
      apply hall hexact k w hw
      rw [Bool.eq_false_iff] at hlive ⊢
      apply mt (ExpiresWrapper.expiredAt_mono hnow) hlive
  | get _ | has _ | set _ _ | setExpiring _ _ _ | delete _ | sweep => exact h

/-- If there is nothing in the source, nothing can be seen. -/
theorem Backed.shown_eq_none (h : Backed M s exact cfg) (hexact : exact) {k : Str}
    (hk : ∀ w, M.get cfg.shared.source k = some w → w.expiredAt cfg.shared.clock = true) :
  shown M s cfg k = none
  := by
  rw [shown, Option.bind_eq_none_iff]
  intro w hw
  rw [if_pos]
  rcases h.complete hexact k w hw with hsource | hexpired
  · apply hk w hsource
  · apply hexpired

/-- An entry of the source that has not expired is seen. -/
theorem Backed.shown_eq_some (h : Backed M s exact cfg) {k : Str} {w : ExpiresWrapper}
    (hk : M.get cfg.shared.source k = some w) (hlive : w.expiredAt cfg.shared.clock = false) :
  shown M s cfg k = some w.payload
  := by
  rw [shown, h.sound k w hk, Option.bind_some, hlive]
  rfl

/-- A command stores or deletes the last entry of a key, leaves the key alone, or evicts it. -/
theorem updates_act (n : ℕ) (op : ExpiringOp) (c : SourceCmd) (r : c.Answer) (w : World σ)
    (k : Str) :
  updates k (.act n op c r : ExpiringEvent Client)
      = some (M.get (c.exec M (fun _ => false) w).2.source k) ∨
    updates k (.act n op c r : ExpiringEvent Client) = none ∧
      (M.get (c.exec M (fun _ => false) w).2.source k = M.get w.source k ∨
        (c = .delete k ∧ op ≠ .delete k ∧
          M.get (c.exec M (fun _ => false) w).2.source k = none))
  := by
  cases c with
  | set k' x =>
      by_cases hk : k' = k
      · left
        simp [updates, SourceCmd.exec, M.get_set, hk]
      · right
        simp [updates, SourceCmd.exec, M.get_set, hk, Ne.symm hk]
  | delete k' =>
      by_cases hk : k' = k
      · subst hk
        by_cases hop : op = .delete k' <;> simp [updates, SourceCmd.exec, M.get_delete, hop]
      · right
        simp [updates, SourceCmd.exec, M.get_delete, hk, Ne.symm hk]
  | get _ | entries | now => exact .inr ⟨rfl, .inl rfl⟩

variable [DecidableEq Client]
  {P : ExpiringConfig Client σ → Turn Client ExpiringOp SystemTime → Prop}

theorem Backed.of_reaches (h : (expiringMachine M).Reaches P (Config.init s) cfg) :
  Backed M s (EvictsExpired M P) cfg
  := by
  apply h.invariant (Backed M s (EvictsExpired M P))
  case start =>
    constructor
    · exact fun k w hw => hw
    · exact fun _ k w hw => .inl hw
  case keep =>
    intro cfg l cfg' ih allowed hs
    cases hs with
    | call _ | ret _ =>
        constructor
        all_goals
          simp only [Config.called, Config.returned, lastEntry_concat, updates, Option.getD_none]
        · apply ih.sound
        · apply ih.complete
    | env hexec =>
        obtain ⟨ht, hs⟩ := Option.ite_none_right_eq_some.mp hexec
        obtain rfl := Option.some.inj hs
        constructor
        · apply ih.sound
        · intro hexact k w hw
          apply (ih.complete hexact k w hw).imp_right
          apply ExpiresWrapper.expiredAt_mono ht
    | @act i n op c next r t run hexec =>
        obtain rfl : (c.exec M (fun _ => false) cfg.shared).2 = t :=
          congrArg Prod.snd (Option.some.inj hexec)
        constructor
        · intro k w hw
          simp only [Config.acted, lastEntry_concat] at hw ⊢
          rcases updates_act (M := M) n op c r cfg.shared k with
            hupdate | ⟨hupdate, hsame | ⟨-, -, hgone⟩⟩
          · rw [hupdate, hw]
            rfl
          · rw [hsame] at hw
            rw [hupdate]
            apply ih.sound k w hw
          · rw [hgone] at hw
            cases hw
        · intro hexact k w hw
          simp only [Config.acted, lastEntry_concat, exec_clock] at hw ⊢
          rcases updates_act (M := M) n op c r cfg.shared k with
            hupdate | ⟨hupdate, hsame | ⟨rfl, hop, -⟩⟩
          · rw [hupdate] at hw
            exact .inl hw
          · rw [hupdate] at hw
            rw [hsame]
            apply ih.complete hexact k w hw
          · -- what an eviction deletes has expired
            right
            rw [hupdate] at hw
            have safe := hexact cfg _ allowed
            simp only [evictionSafe, run, Bool.or_eq_true, beq_iff_eq, Option.all_eq_true] at safe
            rcases ih.complete hexact k w hw with hsource | hexpired
            · apply (safe.resolve_left hop) w hsource
            · apply hexpired

/-- The clock does not go back. -/
theorem clock_mono {cfg' : ExpiringConfig Client σ} (h : (expiringMachine M).Reaches P cfg cfg') :
  cfg.shared.clock ≤ cfg'.shared.clock
  := by
  apply h.invariant fun cfg' => cfg.shared.clock ≤ cfg'.shared.clock
  case start => exact Int.le_refl _
  case keep =>
    intro cfg' l cfg'' ih _ hs
    cases hs with
    | call _ | ret _ => apply ih
    | env hexec =>
        obtain ⟨ht, hs⟩ := Option.ite_none_right_eq_some.mp hexec
        obtain rfl := Option.some.inj hs
        apply Int.le_trans ih ht
    | @act i n op c next r t run hexec =>
        obtain rfl : (c.exec M (fun _ => false) cfg'.shared).2 = t :=
          congrArg Prod.snd (Option.some.inj hexec)
        simpa only [Config.acted, exec_clock] using ih

/-! ### What the programs ensure -/

variable (M P) in
/-- What a program of the operation with ticket `n` ensures from `x` on, amid all others. -/
abbrev Yields (n : ℕ) (op : ExpiringOp) {α : Type} (p : SourceProg α)
    (x : ExpiringConfig Client σ) (post : α → ExpiringConfig Client σ → Prop) : Prop :=
  p.Ensures ((expiringMachine M).Reaches P) ((expiringMachine M).Acts P n op) x post

variable (M P) in
/-- The run has gone on from `x` to `x'`, and in `x₁`, between them, the operation was running. -/
structure Between (s : World σ) (n : ℕ) (op : ExpiringOp) (x x₁ x' : ExpiringConfig Client σ) :
    Prop where
  reached : (expiringMachine M).Reaches P (Config.init s) x'
  since : (expiringMachine M).Reaches P x x'
  moment : (expiringMachine M).Moment P s x' n op x₁

variable {n : ℕ} {op : ExpiringOp} {x x' x'' : ExpiringConfig Client σ} {c : SourceCmd}
  {r : c.Answer}

/-- What is known of a command: what it is answered with is found at a moment of the operation,
and what an exact run evicts has expired. -/
theorem acts_cases (hx : (expiringMachine M).Reaches P (Config.init s) x)
    (hlater : (expiringMachine M).Reaches P x x')
    (hown : (expiringMachine M).Acts P n op c r x' x'') :
  Between M P s n op x x' x'' ∧ (c.exec M (fun _ => false) x'.shared).1 = r ∧
    x''.shared.clock = x'.shared.clock ∧
    (EvictsExpired M P → ∀ k, c = .delete k → op ≠ .delete k →
      ∀ w, M.get x'.shared.source k = some w → w.expiredAt x'.shared.clock = true)
  := by
  have reached := hx.trans hlater
  refine ⟨⟨reached.trans hown.reaches, hlater.trans hown.reaches, hown.moment reached⟩, ?_⟩
  obtain ⟨i, next, t, run, allowed, hexec, rfl⟩ := hown
  have hexec := Option.some.inj hexec
  refine ⟨congrArg Prod.fst hexec, ?_, ?_⟩
  · obtain rfl : (c.exec M (fun _ => false) x'.shared).2 = t := congrArg Prod.snd hexec
    apply exec_clock c x'.shared
  · rintro hexact k rfl hop
    have safe := hexact x' _ allowed
    simp only [evictionSafe, run, Bool.or_eq_true, beq_iff_eq, Option.all_eq_true] at safe
    apply safe.resolve_left hop

theorem yields_isExpired (hx : (expiringMachine M).Reaches P (Config.init s) x)
    (w : ExpiresWrapper) :
  Yields M P n op w.isExpired x fun b x' =>
    (expiringMachine M).Reaches P (Config.init s) x' ∧ (expiringMachine M).Reaches P x x' ∧
      (b = false → w.expiredAt x.shared.clock = false) ∧
      (b = true → w.expiredAt x'.shared.clock = true)
  := by
  obtain ⟨_ | exp, payload⟩ := w
  · exact ⟨hx, .refl, fun _ => rfl, nofun⟩
  · intro x' r x'' hlater hown
    obtain ⟨between, rfl, hclock, -⟩ := acts_cases hx hlater hown
    refine ⟨between.reached, between.since, ?_, ?_⟩
    · intro hlive
      have := asSecs_mono (clock_mono hlater)
      have notYet : ¬ exp ≤ asSecs x'.shared.clock := of_decide_eq_false hlive
      apply decide_eq_false
      omega
    · intro hexpired
      rw [hclock]
      apply hexpired

theorem yields_get (hx : (expiringMachine M).Reaches P (Config.init s) x) {k : Str}
    (hop : op ≠ .delete k) :
  Yields M P n op (WrappedExpiringStorage.get k) x fun r x' => ∃ x₁ found, r = .ok found ∧
    Between M P s n op x x₁ x' ∧ (∀ v, found = some v → shown M s x₁ k = some v) ∧
      (EvictsExpired M P → found = shown M s x₁ k)
  := by
  intro x₁ r x₂ hlater hown
  obtain ⟨between, rfl, hclock, -⟩ := acts_cases hx hlater hown
  have backed := Backed.of_reaches between.moment.reached
  cases hw : M.get x₁.shared.source k with
  | none =>
      simp only [SourceCmd.exec, hw]
      refine ⟨x₁, none, rfl, between, by simp, ?_⟩
      intro hexact
      apply (backed.shown_eq_none hexact (by simp [hw])).symm
  | some w =>
      simp only [SourceCmd.exec, hw]
      apply (yields_isExpired between.reached w).bind
      rintro b x₃ ⟨hx₃, hsince, hlive, hexpired⟩
      cases b with
      | false =>
          have seen := backed.shown_eq_some hw (hclock ▸ hlive rfl)
          refine ⟨x₁, some w.payload, rfl, ⟨hx₃, between.since.trans hsince,
            between.moment.mono hsince⟩, ?_, fun _ => seen.symm⟩
          rintro v ⟨⟩
          apply seen
      | true =>
          -- the eviction is a moment at which nothing can be seen
          intro x₄ r x₅ hlater' hown'
          obtain ⟨between', rfl, -, safe⟩ := acts_cases hx₃ hlater' hown'
          have backed' := Backed.of_reaches between'.moment.reached
          refine ⟨x₄, none, rfl, ⟨between'.reached,
            between.since.trans (hsince.trans between'.since), between'.moment⟩, by simp, ?_⟩
          intro hexact
          apply (backed'.shown_eq_none hexact (safe hexact k rfl hop)).symm

theorem yields_filterLive (hx : (expiringMachine M).Reaches P (Config.init s) x)
    (l : List (Str × ExpiresWrapper)) :
  Yields M P n op (WrappedExpiringStorage.filterLive l) x fun live x' =>
    (expiringMachine M).Reaches P (Config.init s) x' ∧ (expiringMachine M).Reaches P x x' ∧
      (live.map Prod.fst).Sublist (l.map Prod.fst) ∧
      (∀ k v, (k, v) ∈ live → ∃ w, (k, w) ∈ l ∧ v = w.payload ∧
        w.expiredAt x.shared.clock = false) ∧
      ∀ k w, (k, w) ∈ l → w.expiredAt x'.shared.clock = false → (k, w.payload) ∈ live
  := by
  induction l generalizing x with
  | nil => exact ⟨hx, .refl, .slnil, nofun, nofun⟩
  | cons e l ih =>
      obtain ⟨k, w⟩ := e
      apply (yields_isExpired hx w).bind
      rintro b x₁ ⟨hx₁, hsince, hlive, hexpired⟩
      have before : ∀ {w : ExpiresWrapper}, w.expiredAt x₁.shared.clock = false →
          w.expiredAt x.shared.clock = false := by
        intro w hw
        rw [Bool.eq_false_iff] at hw ⊢
        apply mt (ExpiresWrapper.expiredAt_mono (clock_mono hsince)) hw
      cases b with
      | false =>
          apply (ih hx₁).bind
          rintro live x₂ ⟨hx₂, hsince', hsub, hshown, hall⟩
          refine ⟨hx₂, hsince.trans hsince', hsub.cons_cons _, ?_, ?_⟩
          · rintro k' v hmem
            rcases List.mem_cons.mp hmem with heq | hmem
            · obtain ⟨rfl, rfl⟩ := Prod.mk.inj heq
              exact ⟨w, List.mem_cons_self, rfl, hlive rfl⟩
            · obtain ⟨w', hmem', hv, hw'⟩ := hshown k' v hmem
              exact ⟨w', List.mem_cons_of_mem _ hmem', hv, before hw'⟩
          · rintro k' w' hmem hw'
            rcases List.mem_cons.mp hmem with heq | hmem
            · obtain ⟨rfl, rfl⟩ := Prod.mk.inj heq
              apply List.mem_cons_self
            · apply List.mem_cons_of_mem _ (hall k' w' hmem hw')
      | true =>
          apply (ih hx₁).mono
          rintro live x₂ ⟨hx₂, hsince', hsub, hshown, hall⟩
          refine ⟨hx₂, hsince.trans hsince', hsub.cons _, ?_, ?_⟩
          · intro k' v hmem
            obtain ⟨w', hmem', hv, hw'⟩ := hshown k' v hmem
            exact ⟨w', List.mem_cons_of_mem _ hmem', hv, before hw'⟩
          · intro k' w' hmem hw'
            rcases List.mem_cons.mp hmem with heq | hmem
            · obtain ⟨rfl, rfl⟩ := Prod.mk.inj heq
              rw [ExpiresWrapper.expiredAt_mono (clock_mono hsince') (hexpired rfl)] at hw'
              cases hw'
            · apply hall k' w' hmem hw'

theorem yields_entries (hx : (expiringMachine M).Reaches P (Config.init s) x) :
  Yields M P n op WrappedExpiringStorage.entries x fun r x' => ∃ x₁ l, r = .ok l ∧
    Between M P s n op x x₁ x' ∧ (l.map Prod.fst).Nodup ∧
      (∀ k v, (k, v) ∈ l → shown M s x₁ k = some v) ∧
      (EvictsExpired M P → ∀ k w,
        lastEntry M s x₁.history k = some w → w.expiredAt x'.shared.clock = false →
          (k, w.payload) ∈ l)
  := by
  intro x₁ r x₂ hlater hown
  obtain ⟨between, rfl, hclock, -⟩ := acts_cases hx hlater hown
  have backed := Backed.of_reaches between.moment.reached
  apply (yields_filterLive between.reached (M.entries x₁.shared.source)).bind
  rintro live x₃ ⟨hx₃, hsince, hsub, hshown, hall⟩
  refine ⟨x₁, live, rfl, ⟨hx₃, between.since.trans hsince, between.moment.mono hsince⟩,
    hsub.nodup (M.nodup_entries _), ?_, ?_⟩
  · intro k v hmem
    obtain ⟨w, hw, rfl, hlive⟩ := hshown k v hmem
    apply backed.shown_eq_some ((M.mem_entries _ k w).mp hw) (hclock ▸ hlive)
  · intro hexact k w hw hlive
    rcases backed.complete hexact k w hw with hsource | hexpired
    · apply hall k w ((M.mem_entries _ k w).mpr hsource) hlive
    · rw [ExpiresWrapper.expiredAt_mono (clock_mono (between.moment.later.trans hsince))
        hexpired] at hlive
      cases hlive

/-- What an operation ensures from its call on. -/
theorem yields_impl (hx : (expiringMachine M).Reaches P (Config.init s) x)
    (start : (expiringMachine M).Moment P s x n op x) :
  Yields M P n op op.impl x fun val x' => ∃ x₁, (expiringMachine M).Moment P s x' n op x₁ ∧
    Sees M s x₁ x'.shared.clock (EvictsExpired M P) op val
  := by
  cases op with
  | get k =>
      apply (yields_get hx (by simp)).bind
      rintro r x' ⟨x₁, found, rfl, between, hfound, hexact⟩
      exact ⟨x₁, between.moment, found, rfl, hfound, hexact⟩
  | has k =>
      have has : Yields M P n (.has k) (WrappedExpiringStorage.has k) x fun r x' =>
          ∃ x₁ found, r = .ok found.isSome ∧ Between M P s n (.has k) x x₁ x' ∧
            (∀ v, found = some v → shown M s x₁ k = some v) ∧
            (EvictsExpired M P → found = shown M s x₁ k) := by
        apply (yields_get hx (by simp)).bind
        rintro r x' ⟨x₁, found, rfl, rest⟩
        exact ⟨x₁, found, rfl, rest⟩
      apply has.bind
      rintro r x' ⟨x₁, found, rfl, between, hfound, hexact⟩
      refine ⟨x₁, between.moment, found.isSome, rfl, ?_, fun h => by rw [hexact h]⟩
      intro hsome
      obtain ⟨v, rfl⟩ := Option.isSome_iff_exists.mp hsome
      rw [hfound v rfl]
      rfl
  | set k v =>
      intro x₁ r x₂ hlater hown
      obtain ⟨between, rfl, -, -⟩ := acts_cases hx hlater hown
      exact ⟨x₁, between.moment, rfl⟩
  | setExpiring k v t =>
      cases t with
      | none =>
          intro x₁ r x₂ hlater hown
          obtain ⟨between, rfl, -, -⟩ := acts_cases hx hlater hown
          exact ⟨x₁, between.moment, .inl rfl⟩
      | some t =>
          rw [ExpiringOp.impl, WrappedExpiringStorage.setExpiring_some, Prog.act_bind]
          intro x₁ r x₂ hlater hown
          obtain ⟨between, rfl, -, -⟩ := acts_cases hx hlater hown
          dsimp only
          split
          · exact ⟨x₁, between.moment, .inr ⟨rfl, t, rfl, ‹_›⟩⟩
          · intro x₃ r x₄ hlater' hown'
            obtain ⟨between', rfl, -, -⟩ := acts_cases between.reached hlater' hown'
            exact ⟨x₃, between'.moment, .inl rfl⟩
  | delete k =>
      intro x₁ r x₂ hlater hown
      obtain ⟨between, rfl, -, -⟩ := acts_cases hx hlater hown
      have backed := Backed.of_reaches between.moment.reached
      refine ⟨x₁, between.moment, (M.delete x₁.shared.source k).1, rfl, ?_, ?_⟩
      · rw [M.delete_existed]
        intro hsome
        obtain ⟨w, hw⟩ := Option.isSome_iff_exists.mp hsome
        rw [backed.sound k w hw]
        rfl
      · rw [M.delete_existed]
        intro hexact hnone
        apply backed.shown_eq_none hexact
        intro w hw
        rw [hw] at hnone
        cases hnone
  | entries =>
      apply (yields_entries hx).bind
      rintro r x' ⟨x₁, l, rfl, between, hnodup, hshown, hexact⟩
      exact ⟨x₁, between.moment, l, rfl, hnodup, hshown, hexact⟩
  | sweep =>
      have since : Yields M P n .sweep WrappedExpiringStorage.sweep x fun _ x' =>
          (expiringMachine M).Reaches P x x' :=
        Prog.Ensures.of_stable (fun _ _ h hlater => h.trans hlater)
          (fun _ _ _ _ h hown => h.trans hown.reaches) _ .refl
      apply since.bind
      intro _ x' hsince
      exact ⟨x, start.mono hsince, rfl⟩

/-- What an operation returned could be seen at a moment of it, before it ended. -/
theorem sees_of_ret (h : (expiringMachine M).Reaches P (Config.init s) cfg) {val : ExpiringVal}
    (hret : .ret n op val ∈ cfg.history) :
  ∃ cfg₂, (expiringMachine M).Moment P s cfg n op cfg₂ ∧
    ∃ cfg₁, (expiringMachine M).Moment P s cfg₂ n op cfg₁ ∧
      Sees M s cfg₁ cfg₂.shared.clock (EvictsExpired M P) op val
  := by
  apply Machine.ensured_of_reaches (fun n op val cfg₂ =>
    ∃ cfg₁, (expiringMachine M).Moment P s cfg₂ n op cfg₁ ∧
      Sees M s cfg₁ cfg₂.shared.clock (EvictsExpired M P) op val) h _ hret
  intro cfg₀ i op reached
  apply yields_impl reached ⟨reached, .refl, i, _, Function.update_self ..⟩

/-- In every run, what an operation returned could be seen at a moment of it, `cfg₁`: a value that
was shown was stored by the last update of its key, and had not expired.  In runs in which
evictions delete only entries that have expired, `get` and `has` showed what could be seen at that
moment, and `entries` showed all of it that had not expired in `cfg₂`, when it had executed its
last command. -/
theorem operations_atomic (h : (expiringMachine M).Reaches P (Config.init s) cfg) :
  ∀ n op val, .ret n op val ∈ cfg.history →
    ∃ cfg₁ cfg₂, (expiringMachine M).Moment P s cfg₂ n op cfg₁ ∧
      (expiringMachine M).Moment P s cfg n op cfg₂ ∧
      Sees M s cfg₁ cfg₂.shared.clock (EvictsExpired M P) op val
  := by
  intro n op val hret
  obtain ⟨cfg₂, last, cfg₁, moment, hsees⟩ := sees_of_ret h hret
  exact ⟨cfg₁, cfg₂, moment, last, hsees⟩

end

/-- What is stored until the first second is read before, and listed when it is too late. -/
def listedLate : List (Turn Bool ExpiringOp SystemTime) :=
  [.call false (.setExpiring "k".toList "v".toList (some (ofSecs 1))), .act false, .act false,
    .ret false, .call true (.get "k".toList), .act true, .act true, .ret true,
    .call true .entries, .act true, .env (ofSecs 1), .act true, .ret true]

/-- The configuration after that. -/
def afterListedLate : ExpiringConfig Bool (AList fun _ : Str => ExpiresWrapper) :=
  (expiringMachine LawfulMap.ofAList).after (Config.init ⟨∅, 0⟩) listedLate

/-- The clients evict nothing that has not expired. -/
abbrev Safe (cfg : ExpiringConfig Bool (AList fun _ : Str => ExpiresWrapper))
    (l : Turn Bool ExpiringOp SystemTime) : Prop :=
  evictionSafe LawfulMap.ofAList cfg l

theorem operations_atomic_listedLate :
  (∃ cfg₁ cfg₂,
    (expiringMachine LawfulMap.ofAList).Moment Safe ⟨∅, 0⟩ cfg₂ 1 (.get "k".toList) cfg₁ ∧
    (expiringMachine LawfulMap.ofAList).Moment Safe ⟨∅, 0⟩ afterListedLate 1 (.get "k".toList)
      cfg₂ ∧
    shown LawfulMap.ofAList ⟨∅, 0⟩ cfg₁ "k".toList = some "v".toList) ∧
  ∃ cfg₁ cfg₂, (expiringMachine LawfulMap.ofAList).Moment Safe ⟨∅, 0⟩ cfg₂ 2 .entries cfg₁ ∧
    (expiringMachine LawfulMap.ofAList).Moment Safe ⟨∅, 0⟩ afterListedLate 2 .entries cfg₂ ∧
    ∀ k w, lastEntry LawfulMap.ofAList ⟨∅, 0⟩ cfg₁.history k = some w →
      w.expiredAt cfg₂.shared.clock = true
  := by
  have reached : (expiringMachine LawfulMap.ofAList).Reaches Safe (Config.init ⟨∅, 0⟩)
      afterListedLate :=
    Machine.reaches_after listedLate (by decide)
  have atomic := operations_atomic reached
  constructor
  · obtain ⟨cfg₁, cfg₂, moment, last, r, hr, hshown, -⟩ := atomic 1 (.get "k".toList)
      (.found (.ok (some "v".toList))) (List.mem_of_getElem? (i := 7) rfl)
    cases hr
    exact ⟨cfg₁, cfg₂, moment, last, hshown _ rfl⟩
  · obtain ⟨cfg₁, cfg₂, moment, last, l, hl, -, -, hall⟩ := atomic 2 .entries
      (.listed (.ok [])) (List.mem_of_getElem? (i := 11) rfl)
    cases hl
    refine ⟨cfg₁, cfg₂, moment, last, ?_⟩
    intro k w hw
    by_contra hlive
    have safe : EvictsExpired LawfulMap.ofAList Safe := fun _ _ allowed => allowed
    exact absurd (hall safe k w hw (Bool.eq_false_iff.mpr hlive)) List.not_mem_nil

end Storage
