import SolidServer.Library.FreshCalls
import SolidServer.Library.Linearization
import SolidServer.Identity.ClientCredentials

/-!
# Concurrent creates and deletes of tokens

Clients create and delete tokens at the same time; every section of an operation is one
atomic step.  A token can be found by its account, and deleted, before `create` has put its
label into the index.  If `delete` then looks for the label too early, `create` adds an entry
that leads nowhere and is never removed.  In every run in which `delete` finds the label it
removes in the index, the index is right whenever no operation is in progress.
-/

open Text Atomic

namespace Identity

/-- The store and its operations. -/
def credentialsMachine : Machine CredentialsCmd CredentialsCmd.Answer BaseClientCredentialsStore
    CredentialsCall CredentialsResult Empty where
  impl := CredentialsCall.impl
  exec c s := some (c.exec s)
  env e := e.elim

/-- The configurations of the store. -/
abbrev CredentialsConfig (Client : Type) :=
  Config Client CredentialsCmd CredentialsCmd.Answer BaseClientCredentialsStore CredentialsCall
    CredentialsResult

/-- What happens to the store. -/
abbrev CredentialsEvent (Client : Type) :=
  Event Client CredentialsCmd CredentialsCmd.Answer CredentialsCall CredentialsResult

/-- The label of the token that a call creates. -/
def CredentialsCall.label (call : CredentialsCall) : Option Str :=
  call.token.map ClientCredentials.label

section

variable {Client : Type}

/-- The tokens whose creation was called. -/
def created (cfg : CredentialsConfig Client) : List ClientCredentials :=
  keys CredentialsCall.token cfg.history

/-- A token is created with an id and a label that no token was created with before. -/
def freshCreate (cfg : CredentialsConfig Client) (l : Turn Client CredentialsCall Empty) :
    Bool :=
  freshCall CredentialsCall.label cfg l && freshCall CredentialsCall.drawn cfg l

/-- A delete is called for the id of a stored token. -/
def visibleDelete (cfg : CredentialsConfig Client) : Turn Client CredentialsCall Empty → Bool
  | .call _ (.delete id) => id ∈ cfg.shared.byId
  | _ => true

/-- The label that a delete removes is in the index. -/
def indexedRemoval (cfg : CredentialsConfig Client) : Turn Client CredentialsCall Empty → Bool
  | .act i =>
      match cfg.next? i with
      | some (.removeByLabel label) => label ∈ cfg.shared.byLabel
      | _ => true
  | _ => true

/-- A label leads to an id exactly if the token with this id is stored and has the label. -/
def LabelsExact (s : BaseClientCredentialsStore) : Prop :=
  ∀ label id, s.byLabel.lookup label = some id ↔
    ∃ c, s.byId.lookup id = some c ∧ c.id = id ∧ c.label = label

/-! ### What operations have left to do -/

/-- The section reads. -/
def CredentialsCmd.Reads : CredentialsCmd → Prop
  | getById _ | getByLabel _ | filterById _ _ => True
  | _ => False

/-- What the index must be depends on whether the section is pending. -/
def CredentialsCmd.Relevant : CredentialsCmd → Prop
  | insertById _ _ | insertByLabel _ _ | removeByLabel _ => True
  | _ => False

theorem CredentialsCmd.Reads.not_relevant {c : CredentialsCmd} (h : c.Reads) :
  ¬ c.Relevant
  := by
  cases c <;> simp [Reads, Relevant] at *

/-- What a call has left to do. -/
inductive Stage : CredentialsCall → CredentialsProg CredentialsResult → Prop where
  | reading {call p} (h : p.Issues CredentialsCmd.Reads) : Stage call p
  | creating {call c r} (token : call.token = some c) :
      Stage call (.act (.insertById c.id c) fun _ =>
        .act (.insertByLabel c.label c.id) fun _ => .ret r)
  | indexing {call c r} (token : call.token = some c) :
      Stage call (.act (.insertByLabel c.label c.id) fun _ => .ret r)
  | deleting {call id next} (none : ∃ v, next none = .ret v)
      (some : ∀ c : ClientCredentials, ∃ v, next (some c) =
        .act (.removeByLabel c.label) fun _ => .ret v) :
      Stage call (.act (.removeById id) next)
  | removing {call label r} : Stage call (.act (.removeByLabel label) fun _ => .ret r)

/-- At the beginning all of the program is left. -/
theorem Stage.impl (call : CredentialsCall) :
  Stage call call.impl
  := by
  cases call with
  | get id => exact .reading ⟨trivial, fun _ => trivial⟩
  | findByLabel label =>
      apply Stage.reading
      use trivial
      intro r
      cases r with
      | none => trivial
      | some id => exact ⟨trivial, fun _ => trivial⟩
  | findByAccount accountId order => exact .reading ⟨trivial, fun _ => trivial⟩
  | create label webId accountId id secret =>
      have token : (CredentialsCall.create label webId accountId id secret).token
          = some ⟨id, label, webId, accountId, secret⟩ := rfl
      exact .creating token
  | delete id => exact .deleting ⟨_, rfl⟩ fun c => ⟨_, rfl⟩

theorem Stage.ret (call : CredentialsCall) (v : CredentialsResult) :
  Stage call (.ret v)
  := .reading trivial

/-- A command that waits to be issued is one of the stages. -/
theorem Stage.of_head? {call : CredentialsCall} {p : CredentialsProg CredentialsResult}
    (h : Stage call p) :
  (∀ id c, p.head? = some (.insertById id c) → call.token = some c ∧ id = c.id) ∧
    ∀ label id, p.head? = some (.insertByLabel label id) →
      ∃ c, call.token = some c ∧ c.label = label ∧ c.id = id
  := by
  cases h with
  | reading h =>
      constructor
      all_goals
        intro _ _ hp
        cases p with
        | ret _ => cases hp
        | act c next =>
            obtain rfl := Option.some.inj hp
            cases h.1
  | creating token =>
      constructor
      · intro id c hp
        cases hp
        exact ⟨token, rfl⟩
      · intro label id hp
        cases hp
  | indexing token =>
      constructor
      · intro id c hp
        cases hp
      · intro label id hp
        cases hp
        exact ⟨_, token, rfl, rfl⟩
  | deleting _ _ | removing =>
      constructor
      all_goals
        intro _ _ hp
        cases hp

/-! ### The index and the pending sections -/

/-- Some client issues the section next. -/
def Pending (next : Client → Option CredentialsCmd) (c : CredentialsCmd) : Prop :=
  ∃ i, next i = some c

/-- What holds of the store while the clients issue the sections `next`, if the tokens `called`
were created. -/
structure Coherent (s : BaseClientCredentialsStore) (next : Client → Option CredentialsCmd)
    (called : List ClientCredentials) : Prop where
  stored : ∀ id c, s.byId.lookup id = some c → c.id = id ∧ c ∈ called
  entry : ∀ label id, s.byLabel.lookup label = some id →
    ∃ c ∈ called, c.label = label ∧ c.id = id
  removal : ∀ label, Pending next (.removeByLabel label) → ∃ c ∈ called, c.label = label
  creating : ∀ id c, Pending next (.insertById id c) → s.byId.lookup id = none ∧
    s.byLabel.lookup c.label = none ∧ ¬ Pending next (.removeByLabel c.label)
  indexing : ∀ label id, Pending next (.insertByLabel label id) →
    s.byLabel.lookup label = none ∧
      ((∃ c, s.byId.lookup id = some c ∧ c.label = label) ∨ Pending next (.removeByLabel label))
  leads : ∀ label id, s.byLabel.lookup label = some id →
    (∃ c, s.byId.lookup id = some c ∧ c.label = label) ∨ Pending next (.removeByLabel label)
  indexed : ∀ id c, s.byId.lookup id = some c →
    s.byLabel.lookup c.label = some id ∨ Pending next (.insertByLabel c.label id)
  removed : ∀ label, Pending next (.removeByLabel label) →
    ∀ id c, s.byId.lookup id = some c → c.label ≠ label

/-- The two tokens have different labels and different ids. -/
def Apart (c c' : ClientCredentials) : Prop :=
  c.label ≠ c'.label ∧ c.id ≠ c'.id

section

variable {next : Client → Option CredentialsCmd} {i : Client} {s : BaseClientCredentialsStore}
  {called : List ClientCredentials}

namespace Coherent

/-- Nothing changes when the store keeps its tokens and its index, and the relevant sections
are still pending. -/
theorem congr (h : Coherent s next called) {s' : BaseClientCredentialsStore}
    {next' : Client → Option CredentialsCmd}
    (byId : ∀ id, s'.byId.lookup id = s.byId.lookup id) (byLabel : s'.byLabel = s.byLabel)
    (same : ∀ w : CredentialsCmd, w.Relevant → (Pending next' w ↔ Pending next w)) :
  Coherent s' next' called
  := by
  have creates := fun id c => same (.insertById id c) trivial
  have indexes := fun label id => same (.insertByLabel label id) trivial
  have removes := fun label => same (.removeByLabel label) trivial
  constructor
  all_goals
    simp only [byId, byLabel, creates, indexes, removes]
  · exact h.stored
  · exact h.entry
  · exact h.removal
  · exact h.creating
  · exact h.indexing
  · exact h.leads
  · exact h.indexed
  · exact h.removed

/-- When nothing is pending, the index is right. -/
theorem labelsExact (h : Coherent s next called) (quiet : ∀ i, next i = none) :
  LabelsExact s
  := by
  have idle : ∀ {w}, ¬ Pending next w := by
    rintro w ⟨i, hi⟩
    rw [quiet i] at hi
    cases hi
  intro label id
  constructor
  · intro hid
    obtain ⟨c, hc, hlabel⟩ := (h.leads label id hid).resolve_right idle
    exact ⟨c, hc, (h.stored id c hc).1, hlabel⟩
  · rintro ⟨c, hc, -, rfl⟩
    exact (h.indexed id c hc).resolve_right idle

end Coherent

variable [DecidableEq Client]

theorem Pending.of_update {o : Option CredentialsCmd} {w : CredentialsCmd}
    (h : Pending (Function.update next i o) w) :
  o = some w ∨ ∃ j, j ≠ i ∧ next j = some w
  := exists_update_iff.mp h

/-- A pending section that is not in the place of another one is still pending. -/
theorem Pending.update {w : CredentialsCmd} (h : Pending next w) {o : Option CredentialsCmd}
    (hi : next i ≠ some w) :
  Pending (Function.update next i o) w
  := by
  obtain ⟨j, hj⟩ := h
  apply exists_update_iff.mpr
  right
  use j
  constructor
  · rintro rfl
    contradiction
  · exact hj

theorem Pending.update_iff {w : CredentialsCmd} {o : Option CredentialsCmd}
    (hi : next i ≠ some w) (ho : o ≠ some w) :
  Pending (Function.update next i o) w ↔ Pending next w
  := by
  constructor
  · intro h
    rcases h.of_update with h | ⟨j, -, hj⟩
    · contradiction
    · exact ⟨j, hj⟩
  · intro h
    apply h.update hi

namespace Coherent

/-- A client goes on from a section that is not relevant to another one, and the store keeps its
tokens and its index. -/
theorem pass (h : Coherent s next called) {s' : BaseClientCredentialsStore}
    (byId : ∀ id, s'.byId.lookup id = s.byId.lookup id) (byLabel : s'.byLabel = s.byLabel)
    (hi : ∀ w ∈ next i, ¬ w.Relevant) {o : Option CredentialsCmd}
    (ho : ∀ w ∈ o, ¬ w.Relevant) :
  Coherent s' (Function.update next i o) called
  := by
  apply h.congr byId byLabel
  intro w hw
  apply Pending.update_iff
  · exact fun hn => hi w hn hw
  · exact fun hn => ho w hn hw

/-- The token `c` is inserted, and its label is to be put into the index. -/
theorem insertById (h : Coherent s next called) {c : ClientCredentials}
    (hi : next i = some (.insertById c.id c)) (hc : c ∈ called)
    (apart : ∀ j id c', j ≠ i → next j = some (.insertById id c') → id = c'.id ∧ Apart c' c) :
  Coherent { s with byId := s.byId.insert c.id c }
    (Function.update next i (some (.insertByLabel c.label c.id))) called
  := by
  obtain ⟨unused, unlabelled, kept⟩ := h.creating c.id c ⟨i, hi⟩
  have removes : ∀ label, Pending (Function.update next i (some (.insertByLabel c.label c.id)))
      (.removeByLabel label) ↔ Pending next (.removeByLabel label) :=
    fun label => Pending.update_iff (by simp [hi]) (by simp)
  have old : ∀ {id c'}, s.byId.lookup id = some c' →
      (s.byId.insert c.id c).lookup id = some c' := by
    intro id c' hc'
    rw [HashMap.lookup_insert, if_neg, hc']
    rintro rfl
    rw [unused] at hc'
    cases hc'
  constructor
  case stored =>
    intro id c' hc'
    rw [HashMap.lookup_insert] at hc'
    split at hc'
    · obtain rfl := Option.some.inj hc'
      subst_vars
      exact ⟨rfl, hc⟩
    · apply h.stored id c' hc'
  case entry => apply h.entry
  case removal =>
    intro label hp
    apply h.removal label ((removes label).mp hp)
  case creating =>
    intro id c' hp
    rcases hp.of_update with hp | ⟨j, hji, hj⟩
    · cases hp
    · obtain ⟨rfl, -, hid⟩ := apart j id c' hji hj
      obtain ⟨hid', hlabel, hremove⟩ := h.creating _ c' ⟨j, hj⟩
      rw [HashMap.lookup_insert, if_neg hid, removes]
      exact ⟨hid', hlabel, hremove⟩
  case indexing =>
    intro label id hp
    rw [removes]
    rcases hp.of_update with hp | ⟨j, -, hj⟩
    · cases hp
      use unlabelled
      left
      use c
      simp
    · obtain ⟨hlabel, ⟨c', hc', hc''⟩ | hremove⟩ := h.indexing label id ⟨j, hj⟩
      · exact ⟨hlabel, .inl ⟨c', old hc', hc''⟩⟩
      · exact ⟨hlabel, .inr hremove⟩
  case leads =>
    intro label id hid
    rw [removes]
    rcases h.leads label id hid with ⟨c', hc', hc''⟩ | hremove
    · exact .inl ⟨c', old hc', hc''⟩
    · exact .inr hremove
  case indexed =>
    intro id c' hc'
    rw [HashMap.lookup_insert] at hc'
    split at hc'
    · obtain rfl := Option.some.inj hc'
      subst_vars
      right
      use i
      simp
    · rcases h.indexed id c' hc' with hid | hp
      · exact .inl hid
      · right
        apply hp.update
        rw [hi]
        simp
  case removed =>
    intro label hp id c' hc'
    rw [removes] at hp
    rw [HashMap.lookup_insert] at hc'
    split at hc'
    · obtain rfl := Option.some.inj hc'
      rintro rfl
      exact kept hp
    · apply h.removed label hp id c' hc'

/-- The label of the token `c` is put into the index. -/
theorem insertByLabel (h : Coherent s next called) {c : ClientCredentials}
    (hi : next i = some (.insertByLabel c.label c.id)) (hc : c ∈ called)
    (creates : ∀ j id c', j ≠ i → next j = some (.insertById id c') → Apart c' c)
    (indexes : ∀ j label id, j ≠ i → next j = some (.insertByLabel label id) →
      label ≠ c.label) :
  Coherent { s with byLabel := s.byLabel.insert c.label c.id }
    (Function.update next i none) called
  := by
  obtain ⟨unlabelled, settled⟩ := h.indexing c.label c.id ⟨i, hi⟩
  have removes : ∀ label, Pending (Function.update next i none) (.removeByLabel label) ↔
      Pending next (.removeByLabel label) :=
    fun label => Pending.update_iff (by simp [hi]) (by simp)
  constructor
  case stored => apply h.stored
  case entry =>
    intro label id hid
    rw [HashMap.lookup_insert] at hid
    split at hid
    · obtain rfl := Option.some.inj hid
      subst_vars
      exact ⟨c, hc, rfl, rfl⟩
    · apply h.entry label id hid
  case removal =>
    intro label hp
    apply h.removal label ((removes label).mp hp)
  case creating =>
    intro id c' hp
    rcases hp.of_update with hp | ⟨j, hji, hj⟩
    · cases hp
    · obtain ⟨hid, hlabel, hremove⟩ := h.creating id c' ⟨j, hj⟩
      rw [HashMap.lookup_insert, if_neg (creates j id c' hji hj).1, removes]
      exact ⟨hid, hlabel, hremove⟩
  case indexing =>
    intro label id hp
    rw [removes]
    rcases hp.of_update with hp | ⟨j, hji, hj⟩
    · cases hp
    · rw [HashMap.lookup_insert, if_neg (indexes j label id hji hj)]
      apply h.indexing label id ⟨j, hj⟩
  case leads =>
    intro label id hid
    rw [removes]
    rw [HashMap.lookup_insert] at hid
    split at hid
    · obtain rfl := Option.some.inj hid
      subst_vars
      exact settled
    · apply h.leads label id hid
  case indexed =>
    intro id c' hc'
    rw [HashMap.lookup_insert]
    rcases h.indexed id c' hc' with hid | hp
    · left
      rw [if_neg, hid]
      intro hlabel
      rw [hlabel, unlabelled] at hid
      cases hid
    · by_cases hsame : next i = some (.insertByLabel c'.label id)
      · left
        rw [hi] at hsame
        obtain ⟨hlabel, rfl⟩ := CredentialsCmd.insertByLabel.inj (Option.some.inj hsame)
        exact if_pos hlabel.symm
      · right
        apply hp.update hsame
  case removed =>
    intro label hp
    rw [removes] at hp
    apply h.removed label hp

/-- The token `c` is removed, and its label is to be removed from the index. -/
theorem removeById (h : Coherent s next called) {id : Str} {c : ClientCredentials}
    (hi : next i = some (.removeById id)) (hc : s.byId.lookup id = some c)
    (apart : ∀ c₁ ∈ called, ∀ c₂ ∈ called, c₁ = c₂ ∨ Apart c₁ c₂)
    (creates : ∀ id c', Pending next (.insertById id c') → id = c'.id ∧ c' ∈ called) :
  Coherent { s with byId := s.byId.erase id }
    (Function.update next i (some (.removeByLabel c.label))) called
  := by
  obtain ⟨rfl, hcalled⟩ := h.stored id c hc
  have now : Pending (Function.update next i (some (.removeByLabel c.label)))
      (.removeByLabel c.label) := by
    use i
    rw [Function.update_self]
  have removes : ∀ {label}, Pending next (.removeByLabel label) →
      Pending (Function.update next i (some (.removeByLabel c.label)))
        (.removeByLabel label) :=
    fun hp => hp.update (by simp [hi])
  have kept : ∀ {id c'}, (s.byId.erase c.id).lookup id = some c' →
      id ≠ c.id ∧ s.byId.lookup id = some c' := by
    intro id c' hc'
    rw [HashMap.lookup_erase] at hc'
    split at hc'
    · cases hc'
    · exact ⟨‹_›, hc'⟩
  -- a token that was there is still there, or its label is to be removed
  have settled : ∀ {label id},
      ((∃ c', s.byId.lookup id = some c' ∧ c'.label = label) ∨
        Pending next (.removeByLabel label)) →
      (∃ c', (s.byId.erase c.id).lookup id = some c' ∧ c'.label = label) ∨
        Pending (Function.update next i (some (.removeByLabel c.label)))
          (.removeByLabel label) := by
    rintro label id (⟨c', hc', rfl⟩ | hp)
    · by_cases hid : id = c.id
      · subst hid
        obtain rfl := Option.some.inj (hc.symm.trans hc')
        exact .inr now
      · left
        use c'
        rw [HashMap.lookup_erase, if_neg hid]
        exact ⟨hc', rfl⟩
    · exact .inr (removes hp)
  constructor
  case stored =>
    intro id c' hc'
    apply h.stored id c' (kept hc').2
  case entry => apply h.entry
  case removal =>
    intro label hp
    rcases hp.of_update with hp | ⟨j, -, hj⟩
    · cases hp
      exact ⟨c, hcalled, rfl⟩
    · apply h.removal label ⟨j, hj⟩
  case creating =>
    intro id c' hp
    rw [Pending.update_iff (by simp [hi]) (by simp)] at hp
    obtain ⟨rfl, hcalled'⟩ := creates id c' hp
    obtain ⟨hid, hlabel, hremove⟩ := h.creating _ c' hp
    constructor
    · rw [HashMap.lookup_erase, hid, ite_self]
    · use hlabel
      intro hp'
      rcases hp'.of_update with hp' | ⟨j, -, hj⟩
      · obtain hlabel' := CredentialsCmd.removeByLabel.inj (Option.some.inj hp')
        rcases apart c hcalled c' hcalled' with rfl | hapart
        · rw [hc] at hid
          cases hid
        · apply hapart.1 hlabel'
      · apply hremove ⟨j, hj⟩
  case indexing =>
    intro label id hp
    rw [Pending.update_iff (by simp [hi]) (by simp)] at hp
    obtain ⟨hlabel, hsettled⟩ := h.indexing label id hp
    exact ⟨hlabel, settled hsettled⟩
  case leads =>
    intro label id hid
    apply settled (h.leads label id hid)
  case indexed =>
    intro id c' hc'
    rw [Pending.update_iff (by simp [hi]) (by simp)]
    apply h.indexed id c' (kept hc').2
  case removed =>
    intro label hp id c' hc'
    obtain ⟨hid, hc'⟩ := kept hc'
    rcases hp.of_update with hp | ⟨j, -, hj⟩
    · cases hp
      obtain ⟨hid', hcalled'⟩ := h.stored id c' hc'
      rcases apart c' hcalled' c hcalled with rfl | hapart
      · exact absurd hid'.symm hid
      · exact hapart.1
    · apply h.removed label ⟨j, hj⟩ id c' hc'

/-- A label is removed from the index, where it is. -/
theorem removeByLabel (h : Coherent s next called) {label : Str}
    (hi : next i = some (.removeByLabel label)) (indexed : label ∈ s.byLabel) :
  Coherent { s with byLabel := s.byLabel.erase label } (Function.update next i none) called
  := by
  have removed := h.removed label ⟨i, hi⟩
  have kept : ∀ {label' id}, (s.byLabel.erase label).lookup label' = some id →
      label' ≠ label ∧ s.byLabel.lookup label' = some id := by
    intro label' id hid
    rw [HashMap.lookup_erase] at hid
    split at hid
    · cases hid
    · exact ⟨‹_›, hid⟩
  have none : ∀ {label'}, s.byLabel.lookup label' = none →
      (s.byLabel.erase label).lookup label' = none := by
    intro label' hlabel
    rw [HashMap.lookup_erase, hlabel, ite_self]
  have removes : ∀ {label'}, Pending (Function.update next i Option.none)
      (.removeByLabel label') → Pending next (.removeByLabel label') := by
    intro label' hp
    rcases hp.of_update with hp | ⟨j, -, hj⟩
    · cases hp
    · exact ⟨j, hj⟩
  have others : ∀ {label'}, label' ≠ label → Pending next (.removeByLabel label') →
      Pending (Function.update next i Option.none) (.removeByLabel label') := by
    intro label' hne hp
    apply hp.update
    rw [hi]
    simpa using hne.symm
  constructor
  case stored => apply h.stored
  case entry =>
    intro label' id hid
    apply h.entry label' id (kept hid).2
  case removal =>
    intro label' hp
    apply h.removal label' (removes hp)
  case creating =>
    intro id c hp
    rw [Pending.update_iff (by simp [hi]) (by simp)] at hp
    obtain ⟨hid, hlabel, hremove⟩ := h.creating id c hp
    exact ⟨hid, none hlabel, fun hp => hremove (removes hp)⟩
  case indexing =>
    intro label' id hp
    rw [Pending.update_iff (by simp [hi]) (by simp)] at hp
    obtain ⟨hlabel, hsettled⟩ := h.indexing label' id hp
    use none hlabel
    -- the label that is removed is in the index, this one is not yet
    have hne : label' ≠ label := by
      rintro rfl
      rw [AList.lookup_eq_none] at hlabel
      contradiction
    exact hsettled.imp_right (others hne)
  case leads =>
    intro label' id hid
    obtain ⟨hne, hid⟩ := kept hid
    exact (h.leads label' id hid).imp_right (others hne)
  case indexed =>
    intro id c hc
    rw [HashMap.lookup_erase, if_neg (removed id c hc),
      Pending.update_iff (by simp [hi]) (by simp)]
    apply h.indexed id c hc
  case removed =>
    intro label' hp id c hc
    apply h.removed label' (removes hp) id c hc

/-- A token is going to be created whose id and label are new. -/
theorem create (h : Coherent s next called) {c : ClientCredentials}
    (idle : next i = none) (fresh : ∀ c' ∈ called, Apart c' c) :
  Coherent s (Function.update next i (some (.insertById c.id c))) (called ++ [c])
  := by
  have removes : ∀ label, Pending (Function.update next i (some (.insertById c.id c)))
      (.removeByLabel label) ↔ Pending next (.removeByLabel label) :=
    fun label => Pending.update_iff (by simp [idle]) (by simp)
  have indexes : ∀ label id, Pending (Function.update next i (some (.insertById c.id c)))
      (.insertByLabel label id) ↔ Pending next (.insertByLabel label id) :=
    fun label id => Pending.update_iff (by simp [idle]) (by simp)
  constructor
  case stored =>
    intro id c' hc'
    obtain ⟨hid, hcalled⟩ := h.stored id c' hc'
    exact ⟨hid, List.mem_append_left _ hcalled⟩
  case entry =>
    intro label id hid
    obtain ⟨c', hcalled, hc'⟩ := h.entry label id hid
    exact ⟨c', List.mem_append_left _ hcalled, hc'⟩
  case removal =>
    intro label hp
    obtain ⟨c', hcalled, hc'⟩ := h.removal label ((removes label).mp hp)
    exact ⟨c', List.mem_append_left _ hcalled, hc'⟩
  case creating =>
    intro id c' hp
    rw [removes]
    rcases hp.of_update with hp | ⟨j, -, hj⟩
    · cases hp
      refine ⟨?_, ?_, ?_⟩
      · apply Option.eq_none_iff_forall_ne_some.mpr
        intro c' hc'
        obtain ⟨hid, hcalled⟩ := h.stored _ c' hc'
        exact (fresh c' hcalled).2 hid
      · apply Option.eq_none_iff_forall_ne_some.mpr
        intro id hid
        obtain ⟨c', hcalled, hlabel, -⟩ := h.entry _ id hid
        exact (fresh c' hcalled).1 hlabel
      · intro hp
        obtain ⟨c', hcalled, hlabel⟩ := h.removal _ hp
        exact (fresh c' hcalled).1 hlabel
    · apply h.creating id c' ⟨j, hj⟩
  case indexing =>
    intro label id hp
    rw [removes]
    apply h.indexing label id ((indexes label id).mp hp)
  case leads =>
    intro label id hid
    rw [removes]
    apply h.leads label id hid
  case indexed =>
    intro id c' hc'
    rw [indexes]
    apply h.indexed id c' hc'
  case removed =>
    intro label hp
    apply h.removed label ((removes label).mp hp)

end Coherent

end

/-! ### Runs -/

/-- No two calls create tokens with the same label or the same id. -/
structure Distinct (cfg : CredentialsConfig Client) : Prop where
  labels : FreshCalls CredentialsCall.label cfg
  ids : FreshCalls CredentialsCall.drawn cfg

theorem key_map {e : CredentialsEvent Client} {c : ClientCredentials}
    (h : e.key CredentialsCall.token = some c) (f : ClientCredentials → Str) :
  (e.key fun call => call.token.map f) = some (f c)
  := by
  cases e with
  | call _ _ op => exact Option.map_eq_some_iff.mpr ⟨c, h, rfl⟩
  | act _ _ _ _ | ret _ _ _ => cases h

namespace Distinct

variable {cfg : CredentialsConfig Client}

/-- Two tokens are the same, or have different labels and ids. -/
theorem created (h : Distinct cfg) {c c' : ClientCredentials} (hc : c ∈ created cfg)
    (hc' : c' ∈ Identity.created cfg) :
  c = c' ∨ Apart c c'
  := by
  obtain ⟨e, he, hec⟩ := mem_keys_iff.mp hc
  obtain ⟨e', he', hec'⟩ := mem_keys_iff.mp hc'
  have same : e = e' → c = c' := by
    rintro rfl
    exact Option.some.inj (hec.symm.trans hec')
  by_cases hcc' : c = c'
  · exact .inl hcc'
  · right
    constructor
    · intro hlabel
      apply hcc' (same (h.labels.event_eq he he' (key_map hec _) _))
      rw [hlabel]
      exact key_map hec' _
    · intro hid
      apply hcc' (same (h.ids.event_eq he he' (key_map hec _) _))
      rw [hid]
      exact key_map hec' _

/-- Tokens that different clients are creating have different labels and ids. -/
theorem threads (h : Distinct cfg) (sound : Sound cfg) {i j : Client} (hij : j ≠ i)
    {t u : Thread CredentialsCmd CredentialsCmd.Answer CredentialsCall CredentialsResult}
    (ht : cfg.threads i = some t) (hu : cfg.threads j = some u) {c c' : ClientCredentials}
    (hc : t.op.token = some c) (hc' : u.op.token = some c') :
  Apart c' c
  := by
  constructor
  · intro hlabel
    apply hij
    apply h.labels.client_eq sound hu ht (Option.map_eq_some_iff.mpr ⟨c', hc', hlabel⟩)
    exact Option.map_eq_some_iff.mpr ⟨c, hc, rfl⟩
  · intro hid
    apply hij
    apply h.ids.client_eq sound hu ht (Option.map_eq_some_iff.mpr ⟨c', hc', hid⟩)
    exact Option.map_eq_some_iff.mpr ⟨c, hc, rfl⟩

end Distinct

/-- What holds of every configuration of a run in which deletes find the labels that they
remove. -/
structure Tracked (cfg : CredentialsConfig Client) : Prop where
  stage : ∀ i t, cfg.threads i = some t → Stage t.op t.rest
  coherent : Coherent cfg.shared cfg.next? (created cfg)

namespace Tracked

variable {cfg : CredentialsConfig Client}

/-- A section that inserts a token is issued by a client that creates it. -/
theorem creates (h : Tracked cfg) {i : Client} {id : Str} {c : ClientCredentials}
    (hi : cfg.next? i = some (.insertById id c)) :
  ∃ t, cfg.threads i = some t ∧ t.op.token = some c ∧ id = c.id
  := by
  obtain ⟨t, ht, hhead⟩ := Option.bind_eq_some_iff.mp hi
  use t, ht
  apply (h.stage i t ht).of_head?.1 id c hhead

/-- A section that puts a label into the index is issued by a client that creates a token with
this label. -/
theorem indexes (h : Tracked cfg) {i : Client} {label id : Str}
    (hi : cfg.next? i = some (.insertByLabel label id)) :
  ∃ t c, cfg.threads i = some t ∧ t.op.token = some c ∧ c.label = label
  := by
  obtain ⟨t, ht, hhead⟩ := Option.bind_eq_some_iff.mp hi
  obtain ⟨c, hc, hlabel, -⟩ := (h.stage i t ht).of_head?.2 label id hhead
  exact ⟨t, c, ht, hc, hlabel⟩

theorem init :
  Tracked (Config.init .new : CredentialsConfig Client)
  := by
  have idle : ∀ w, ¬ Pending (Config.init .new : CredentialsConfig Client).next? w := by
    rintro w ⟨i, hi⟩
    cases hi
  constructor
  case stage =>
    intro i t ht
    cases ht
  case coherent =>
    constructor
    case stored | indexed =>
      intro id c hc
      cases hc
    case entry | leads =>
      intro label id hid
      cases hid
    case removal | removed =>
      intro label hp
      exact absurd hp (idle _)
    case creating =>
      intro id c hp
      exact absurd hp (idle _)
    case indexing =>
      intro label id hp
      exact absurd hp (idle _)

section

variable [DecidableEq Client]

theorem called (h : Tracked cfg) {i : Client} (idle : cfg.threads i = none)
    {op : CredentialsCall} (fresh : freshCreate cfg (.call i op) = true) :
  Tracked (cfg.called i op op.impl)
  := by
  have free : cfg.next? i = none := by
    rw [Config.next?, idle]
    rfl
  have apart : ∀ c, op.token = some c → ∀ c' ∈ created cfg, Apart c' c := by
    intro c hc c' hc'
    obtain ⟨labels, ids⟩ := (Bool.and_eq_true _ _).mp fresh
    obtain ⟨e, he, hec⟩ := mem_keys_iff.mp hc'
    simp only [freshCall, CredentialsCall.label, CredentialsCall.drawn, hc, Option.map_some,
      Option.all_some, decide_eq_true_eq, mem_keys_iff, not_exists, not_and] at labels ids
    constructor
    · intro hlabel
      apply labels e he
      rw [← hlabel]
      exact key_map hec _
    · intro hid
      apply ids e he
      rw [← hid]
      exact key_map hec _
  constructor
  case stage =>
    intro j t ht
    rcases of_update_eq_some ht with ⟨-, ht⟩ | ⟨-, ht⟩
    · obtain rfl := Option.some.inj ht
      apply Stage.impl
    · apply h.stage j t ht
  case coherent =>
    rw [Config.next?_called, created, Config.called, keys_concat]
    cases op with
    | get _ | findByLabel _ | findByAccount _ _ | delete _ =>
        apply (List.append_nil (created cfg)).symm ▸ h.coherent.pass (fun _ => rfl) rfl _ _
        · simp [free]
        · rintro w ⟨⟩
          exact not_false
    | create label webId accountId id secret => apply h.coherent.create free (apart _ rfl)

theorem acted (h : Tracked cfg) (sound : Sound cfg) (distinct : Distinct cfg) {i : Client} {n : ℕ}
    {op : CredentialsCall} {c : CredentialsCmd}
    {next : c.Answer → CredentialsProg CredentialsResult}
    (run : cfg.threads i = some ⟨n, op, .act c next⟩)
    (indexed : indexedRemoval cfg (.act i) = true) :
  Tracked (cfg.acted i ⟨n, op, .act c next⟩ c (c.exec cfg.shared).1 (c.exec cfg.shared).2
    (next (c.exec cfg.shared).1))
  := by
  have hi : cfg.next? i = some c := by
    rw [Config.next?, run]
    rfl
  have stages : Stage op (next (c.exec cfg.shared).1) →
      ∀ j t, (Function.update cfg.threads i (some ⟨n, op, next (c.exec cfg.shared).1⟩)) j = some t →
        Stage t.op t.rest := by
    intro hstage j t ht
    rcases of_update_eq_some ht with ⟨-, ht⟩ | ⟨-, ht⟩
    · obtain rfl := Option.some.inj ht
      exact hstage
    · apply h.stage j t ht
  have key : Stage op (next (c.exec cfg.shared).1) ∧ Coherent (c.exec cfg.shared).2
      (Function.update cfg.next? i (next (c.exec cfg.shared).1).head?) (created cfg) := by
    cases h.stage i _ run with
    | reading hreads =>
        obtain ⟨hread, hrest⟩ := hreads
        use .reading (hrest _)
        apply h.coherent.pass
        · cases c <;> first | exact fun _ => rfl | cases hread
        · cases c <;> first | rfl | cases hread
        · rw [hi]
          rintro w ⟨⟩
          exact hread.not_relevant
        · intro w hw
          exact ((hrest _).head? hw).not_relevant
    | creating token =>
        use .indexing token
        apply h.coherent.insertById hi (sound.mem_keys run token)
        intro j id c' hji hj
        obtain ⟨t, ht, token', hid⟩ := h.creates hj
        exact ⟨hid, distinct.threads sound hji run ht token token'⟩
    | indexing token =>
        use .ret _ _
        apply h.coherent.insertByLabel hi (sound.mem_keys run token)
        · intro j id c' hji hj
          obtain ⟨t, ht, token', -⟩ := h.creates hj
          exact distinct.threads sound hji run ht token token'
        · intro j label id hji hj
          obtain ⟨t, c', ht, token', rfl⟩ := h.indexes hj
          exact (distinct.threads sound hji run ht token token').1
    | @deleting id _ hnone hsome =>
        obtain ⟨v, hv⟩ := hnone
        simp only [CredentialsCmd.exec]
        cases hc : cfg.shared.byId.lookup id with
        | none =>
            rw [hv]
            use .ret _ _
            apply h.coherent.pass
            · intro id'
              rw [HashMap.lookup_erase]
              split
              · subst_vars
                exact hc.symm
              · rfl
            · rfl
            · rw [hi]
              rintro w ⟨⟩
              exact not_false
            · rintro w ⟨⟩
        | some c =>
            obtain ⟨v', hv'⟩ := hsome c
            rw [hv']
            use .removing
            apply h.coherent.removeById hi hc
            · intro c₁ hc₁ c₂ hc₂
              apply distinct.created hc₁ hc₂
            · rintro id' c' ⟨j, hj⟩
              obtain ⟨t, ht, token, hid⟩ := h.creates hj
              exact ⟨hid, sound.mem_keys ht token⟩
    | removing =>
        use .ret _ _
        apply h.coherent.removeByLabel hi
        rw [indexedRemoval, hi] at indexed
        simpa using indexed
  constructor
  case stage => apply stages key.1
  case coherent =>
    rw [Config.next?_acted, created, Config.acted, keys_concat, Event.key_act,
      Option.toList_none, List.append_nil]
    apply key.2

theorem returned (h : Tracked cfg) {i : Client} {n : ℕ} {op : CredentialsCall}
    {v : CredentialsResult} (run : cfg.threads i = some ⟨n, op, .ret v⟩) :
  Tracked (cfg.returned i ⟨n, op, .ret v⟩ v)
  := by
  have free : cfg.next? i = none := by
    rw [Config.next?, run]
    rfl
  constructor
  case stage =>
    intro j t ht
    rcases of_update_eq_some ht with ⟨-, ht⟩ | ⟨-, ht⟩
    · cases ht
    · apply h.stage j t ht
  case coherent =>
    rw [Config.next?_returned, created, Config.returned, keys_concat, Event.key_ret,
      Option.toList_none, List.append_nil]
    apply h.coherent.pass (fun _ => rfl) rfl <;> simp [free]

theorem of_reaches
    (h : credentialsMachine.Reaches (fun cfg l => freshCreate cfg l ∧ indexedRemoval cfg l)
      (Config.init .new) cfg) :
  Tracked cfg
  := by
  induction h with
  | refl => exact Tracked.init
  | step before allowed hs ih =>
      obtain ⟨fresh, indexed⟩ := allowed
      have sound := Sound.of_reaches before
      have distinct : Distinct _ := {
        labels := FreshCalls.of_reaches before fun _ _ h => ((Bool.and_eq_true _ _).mp h.1).1
        ids := FreshCalls.of_reaches before fun _ _ h => ((Bool.and_eq_true _ _).mp h.1).2 }
      cases hs with
      | call idle => apply ih.called idle fresh
      | act run hexec =>
          obtain ⟨rfl, rfl⟩ := Prod.mk.inj (Option.some.inj hexec)
          apply ih.acted sound distinct run indexed
      | ret run => apply ih.returned run
      | @env e _ _ => exact e.elim

end

end Tracked

section

variable [DecidableEq Client] {cfg : CredentialsConfig Client}

/-- In every run of calls in which tokens are created with fresh ids and labels, and a delete
finds the label it removes in the index, the index is right whenever no call is in progress. -/
theorem labels_exact_of_indexedRemoval
    (h : credentialsMachine.Reaches (fun cfg l => freshCreate cfg l ∧ indexedRemoval cfg l)
      (Config.init .new) cfg) (quiescent : cfg.Quiescent) :
  LabelsExact cfg.shared
  := (Tracked.of_reaches h).coherent.labelsExact quiescent.next?_eq_none

end

end

/-- A token is deleted while it is created, and its label is in the index when it is removed. -/
def createThenDelete : List (Turn Bool CredentialsCall Empty) :=
  [.call false (.create "app".toList ⟨"https://a/#me".toList⟩ "a".toList "1".toList "s".toList),
    .act false, .call true (.delete "1".toList), .act true, .act false, .act true, .ret false,
    .ret true]

theorem labels_exact_of_indexedRemoval_createThenDelete :
  LabelsExact (credentialsMachine.after (Config.init .new) createThenDelete).shared
  := by
  apply labels_exact_of_indexedRemoval (Machine.reaches_after createThenDelete (by decide))
  intro i
  cases i <;> rfl

/-- A token is deleted before its label is in the index. -/
def deleteBeforeIndexing : List (Turn Bool CredentialsCall Empty) :=
  [.call false (.create "app".toList ⟨"https://a/#me".toList⟩ "a".toList "1".toList "s".toList),
    .act false, .call true (.delete "1".toList), .act true, .act true, .ret true, .act false,
    .ret false]

/-- A delete of a token that can be seen may leave a label that leads to no token. -/
theorem not_labels_exact :
  ¬ ∀ cfg : CredentialsConfig Bool,
    credentialsMachine.Reaches (fun cfg l => freshCreate cfg l ∧ visibleDelete cfg l)
      (Config.init .new) cfg → cfg.Quiescent → LabelsExact cfg.shared
  := by
  intro h
  have exact := h _ (Machine.reaches_after deleteBeforeIndexing (by decide))
    (by intro i; cases i <;> rfl)
  obtain ⟨c, hc, -⟩ := (exact "app".toList "1".toList).mp rfl
  cases hc

end Identity
