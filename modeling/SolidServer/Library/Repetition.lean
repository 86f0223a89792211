import SolidServer.Library.Commuting
import SolidServer.Library.Sections

/-!
# Operations that are repeated

The state is what the commands in the history make of the first one (`Script.after`).  If an
operation is repeated after it has returned, its commands have an effect only once and commute
with each other, and every other operation commutes with it or does not come in between, then
the commands of the second one have no effect: the state is always the one that the commands of
the other operations leave (`Machine.shared_eq_after_others`).
-/

namespace Atomic

variable {Client C : Type} {R : C → Type} {σ Op Val Env : Type}

namespace Script

variable (S : Script C σ Op)

/-- The effects of the commands can be exchanged. -/
def Commute (c d : C) : Prop :=
  ∀ s, S.effect c (S.effect d s) = S.effect d (S.effect c s)

/-- The state that the commands in the history leave. -/
def after (history : List (Event Client C R Op Val)) (s : σ) : σ :=
  S.play ((S.changesOf history).map Prod.snd) s

theorem after_concat (history : List (Event Client C R Op Val)) (e : Event Client C R Op Val)
    (s : σ) :
  S.after (history ++ [e]) s
    = (S.change e).elim (S.after history s) fun x => S.effect x.2 (S.after history s)
  := by
  rw [after, S.changesOf_concat, List.map_append, S.play_append]
  cases S.change e <;> rfl

/-- Events without an effect where they come can be left out. -/
theorem after_filter (history : List (Event Client C R Op Val)) (s : σ)
    (kept : Event Client C R Op Val → Bool)
    (idle : ∀ l₁ e l₂, history = l₁ ++ e :: l₂ → kept e = false →
      S.after (l₁ ++ [e]) s = S.after l₁ s) :
  S.after (history.filter kept) s = S.after history s
  := by
  induction history using List.reverseRecOn with
  | nil => rfl
  | append_singleton history e ih =>
      have same := ih fun l₁ e' l₂ hsplit =>
        idle l₁ e' (l₂ ++ [e]) (by rw [hsplit, List.append_assoc, List.cons_append])
      rw [List.filter_append]
      cases hkept : kept e with
      | false =>
          rw [List.filter_cons_of_neg (by simp [hkept]), List.filter_nil, List.append_nil, same,
            idle history e [] rfl hkept]
      | true =>
          rw [List.filter_cons_of_pos hkept, List.filter_nil, S.after_concat, S.after_concat, same]

end Script

/-- Every operation but those with the tickets `a` and `b` is harmless, or returned before the
first of them was called, or was called after the second returned. -/
def Secluded (history : List (Event Client C R Op Val)) (Harmless : Op → Prop) (a b : ℕ) : Prop :=
  ∀ j m op, .call j m op ∈ history → m ≠ a → m ≠ b → Harmless op ∨
    (∃ v i op', Before history (.ret m op v) (.call i a op')) ∨
      ∃ v op', Before history (.ret b op' v) (.call j m op)

variable [DecidableEq Client] [IsEmpty Env] {M : Machine C R σ Op Val Env} {S : Script C σ Op}
  {P : Config Client C R σ Op Val → Turn Client Op Env → Prop}
  {cfg : Config Client C R σ Op Val} {s : σ}

/-- A command that had no effect any more still has none, unless one that does not commute with it
comes in between. -/
theorem idle_or_disturbed (obeys : M.Obeys S) (h : M.Reaches P (Config.init s) cfg) {c : C}
    (idempotent : ∀ t, S.effect c (S.effect c t) = S.effect c t) {n : ℕ} {op : Op} {r : R c}
    (hact : .act n op c r ∈ cfg.history) :
  S.effect c cfg.shared = cfg.shared ∨ ∃ m op' c' r', (S.changes c' = true ∧ ¬ S.Commute c c') ∧
    Before cfg.history (.act n op c r) (.act m op' c' r')
  := by
  apply kept_or_broken (fun t => S.effect c t = t)
    (fun o => S.changes o.1 = true ∧ ¬ S.Commute c o.1) _ _ _ h hact
  · intro s t hexec
    rw [obeys.exec c s r t hexec]
    apply idempotent s
  · intro c' s r t hexec idle
    rw [obeys.exec c' s r t hexec]
    by_cases hc' : S.changes c' = true
    · by_cases commute : S.Commute c c'
      · left
        rw [commute s, idle]
      · exact .inr ⟨hc', commute⟩
    · left
      rw [obeys.still c' s (Bool.eq_false_iff.mpr hc')]
      apply idle
  · exact fun e => isEmptyElim e

namespace Machine

/-- If an operation is called again after it has returned, and every other operation commutes
with it or does not come between the first call and the second return, the commands of the
second one have no effect. -/
theorem shared_eq_after_others (obeys : M.Obeys S) (h : M.Reaches P (Config.init s) cfg)
    {x x' : Op} (again : S.commands x' = S.commands x)
    (idempotent : ∀ c ∈ S.commands x, ∀ t, S.effect c (S.effect c t) = S.effect c t)
    (own : ∀ c ∈ S.commands x, ∀ d ∈ S.commands x, S.Commute c d)
    {a b : ℕ} {v : Val} {i : Client}
    (hab : Before cfg.history (.ret a x v) (.call i b x'))
    (secluded : Secluded cfg.history
      (fun y => ∀ c ∈ S.commands x, ∀ d ∈ S.commands y, S.Commute c d) a b) :
  cfg.shared = S.after (cfg.history.filter (·.ticket ≠ b)) s
  := by
  have sound := Sound.of_reaches h
  rw [Script.after_filter]
  · apply shared_eq_play obeys h
  intro l₁ e l₂ hsplit he
  have hticket : e.ticket = b := by simpa using he
  rw [S.after_concat]
  cases e with
  | call _ _ _ | ret _ _ _ => rfl
  | act n y c r =>
      obtain rfl : n = b := hticket
      by_cases hc : S.changes c = true
      · have hmem : Event.act n y c r ∈ cfg.history := by
          rw [hsplit]
          apply List.mem_append_right l₁ List.mem_cons_self
        obtain rfl : y = x' := sound.op_eq hmem hab.right_mem rfl
        have hcommand : c ∈ S.commands x := again ▸ mem_commands obeys h hmem hc
        -- the first operation has issued the command before
        obtain ⟨r', first⟩ : ∃ r', Event.act a x c r' ∈ l₁ := by
          have issued := commands_of_returned obeys h hab.left_mem ▸ hcommand
          obtain ⟨⟨c', r'⟩, ho, rfl⟩ := List.mem_map.mp (List.mem_filter.mp issued).1
          obtain ⟨z, hz⟩ := mem_answersOf_iff.mp ho
          obtain rfl : z = x := sound.op_eq hz hab.left_mem rfl
          exact ⟨r', sound.mem_of_split hab hz rfl rfl hsplit⟩
        obtain ⟨cfg₁, t, h₁, rfl, -⟩ := h.exec_of_history hsplit
        have left : S.after cfg₁.history s = cfg₁.shared := (shared_eq_play obeys h₁).symm
        have undisturbed := idle_or_disturbed obeys h₁ (idempotent c hcommand) first
        rcases undisturbed with idle | ⟨m, z, d, q, ⟨hd, disturbs⟩, hbefore⟩
        · simp [Script.change, hc, left, idle]
        · -- the command in between would be one of an operation that comes in between
          have earlier : Before cfg.history (.act a x c r') (.act m z d q) := by
            rw [hsplit]
            apply hbefore.append _
          have later : Before cfg.history (.act m z d q) (.act n y c r) := by
            use cfg₁.history, .act n y c r :: l₂, hsplit, hbefore.right_mem
            apply List.mem_cons_self
          have hz := mem_commands obeys h earlier.right_mem hd
          by_cases ha : m = a
          · obtain rfl : z = x := sound.op_eq earlier.right_mem hab.left_mem ha
            exact absurd (own c hcommand d hz) disturbs
          by_cases hb : m = n
          · obtain rfl : z = y := sound.op_eq earlier.right_mem hmem hb
            rw [again] at hz
            exact absurd (own c hcommand d hz) disturbs
          obtain ⟨j, hj⟩ := sound.opened _ earlier.right_mem
          rcases secluded j m z hj ha hb with commutes | ⟨v, i, z', hz'⟩ | ⟨v, z', hz'⟩
          · exact absurd (commutes c hcommand d hz) disturbs
          · exact absurd earlier (sound.not_before hz' rfl rfl)
          · exact absurd later (sound.not_before hz' rfl rfl)
      · simp [Script.change, hc]

end Machine

end Atomic
