import SolidServer.Library.TwoRuns
import SolidServer.ServerCore.Server

/-!
# Confidentiality

What is stored under some keys, called secret, is shown by the server in the responses to the
requests that are accepted to read one of these keys, and in no others.  Two runs are compared
in which the same requests are sent in the same order, from stores with the same keys, and in
which what is stored and what is written under secret keys may differ.  Whatever other clients
read and write meanwhile, and wherever their sections come between others, all responses but
those of accepted reads of secret keys are the same in the two runs.
-/

open Text Http HttpTypes Authz Atomic

namespace ServerCore

/-! ### Stores that differ in what is secret -/

/-- Stores with the same keys, and the same entries where they are not secret. -/
def SameOutside (secret : Str → Bool) (s t : LdpStore) : Prop :=
  ∀ k, (s.lookup k).isSome = (t.lookup k).isSome ∧ (secret k = false → s.lookup k = t.lookup k)

variable {secret : Str → Bool}

namespace SameOutside

variable {s t : LdpStore}

theorem refl (s : LdpStore) :
  SameOutside secret s s
  := fun _ => ⟨rfl, fun _ => rfl⟩

theorem mem_iff (h : SameOutside secret s t) (k : Str) :
  k ∈ s ↔ k ∈ t
  := by
  rw [← LdpStore.isSome_lookup_iff, ← LdpStore.isSome_lookup_iff, (h k).1]

/-- Entries are written under one key that are the same, or the key is secret. -/
theorem insert (h : SameOutside secret s t) {k : Str} (e e' : Entry)
    (he : e = e' ∨ secret k = true) :
  SameOutside secret ((StoreCmd.insert k e).exec s).2 ((StoreCmd.insert k e').exec t).2 ∧
    ((StoreCmd.insert k e).exec s).1 = ((StoreCmd.insert k e').exec t).1
  := by
  refine ⟨?_, congrArg (! ·) (decide_eq_decide.mpr (h.mem_iff k))⟩
  intro k'
  change ((s.insert k e).lookup k').isSome = ((t.insert k e').lookup k').isSome ∧
    (secret k' = false → (s.insert k e).lookup k' = (t.insert k e').lookup k')
  rw [LdpStore.lookup_insert, LdpStore.lookup_insert]
  by_cases hk : k' = k
  · rw [if_pos hk, if_pos hk]
    use rfl
    intro hsecret
    rcases he with rfl | he
    · rfl
    · rw [hk, he] at hsecret
      cases hsecret
  · rw [if_neg hk, if_neg hk]
    apply h k'

/-- A section leaves stores that differ in what is secret, and its answer is the same, unless it
looks up a secret key. -/
theorem exec (h : SameOutside secret s t) (c : StoreCmd) :
  SameOutside secret (c.exec s).2 (c.exec t).2 ∧
    ((∀ k, c = .get k → secret k = false) → (c.exec s).1 = (c.exec t).1)
  := by
  cases c with
  | get k => exact ⟨h, fun hsecret => (h k).2 (hsecret k rfl)⟩
  | containsKey k => exact ⟨h, fun _ => decide_eq_decide.mpr (h.mem_iff k)⟩
  | ensureAncestors k =>
      refine ⟨?_, fun _ => rfl⟩
      intro k'
      change ((s.ensureAncestors k).lookup k').isSome = ((t.ensureAncestors k).lookup k').isSome ∧
        (secret k' = false → (s.ensureAncestors k).lookup k' = (t.ensureAncestors k).lookup k')
      rw [LdpStore.lookup_ensureAncestors, LdpStore.lookup_ensureAncestors, Option.isSome_or,
        Option.isSome_or, (h k').1]
      use rfl
      intro hsecret
      rw [(h k').2 hsecret]
  | insert k e =>
      obtain ⟨hstore, hanswer⟩ := h.insert (k := k) e e (.inl rfl)
      exact ⟨hstore, fun _ => hanswer⟩
  | remove k =>
      refine ⟨?_, fun _ => decide_eq_decide.mpr (h.mem_iff k)⟩
      intro k'
      change ((s.erase k).lookup k').isSome = ((t.erase k).lookup k').isSome ∧
        (secret k' = false → (s.erase k).lookup k' = (t.erase k).lookup k')
      rw [LdpStore.lookup_erase, LdpStore.lookup_erase]
      split
      · exact ⟨rfl, fun _ => rfl⟩
      · apply h k'

end SameOutside

/-! ### Requests that differ in what they write -/

/-- Requests for the same write of a secret key that may differ in the entry that they write. -/
structure Rewrites (secret : Str → Bool) (x x' : Exchange) : Prop where
  method : x.2.method = x'.2.method
  path : x.2.path = x'.2.path
  origin : x.2.headers.get .origin = x'.2.headers.get .origin
  credentials : extractCredentials x.2 = extractCredentials x'.2
  writes : ∃ k e e', mainSection x = some (.insert k e) ∧ mainSection x' = some (.insert k e') ∧
    secret k = true

/-- The same request, or the same write of a secret key. -/
def AlikeRequests (secret : Str → Bool) (x x' : Exchange) : Prop :=
  x = x' ∨ Rewrites secret x x'

/-- The request is accepted and reads a secret key. -/
def reveals (authz : AuthzState) (secret : Str → Bool) (x : Exchange) : Bool :=
  match acceptedSection authz x with
  | some (.get k) => secret k
  | _ => false

variable {authz : AuthzState}

/-- The permission reader and the authorizer cannot tell the requests apart. -/
theorem Rewrites.decision_eq {x x' : Exchange} (h : Rewrites secret x x') :
  decision authz x.2 = decision authz x'.2
  := by
  have modes : accessMap x.2 = accessMap x'.2 := by
    rw [accessMap, accessMap, h.method, h.path]
  rw [decision, decision, h.credentials, modes]

theorem AlikeRequests.reveals_eq {x x' : Exchange} (h : AlikeRequests secret x x') :
  reveals authz secret x = reveals authz secret x'
  := by
  rcases h with rfl | h
  · rfl
  · obtain ⟨k, e, e', hx, hx', -⟩ := h.writes
    simp only [reveals, acceptedSection, h.decision_eq, hx, hx']
    cases decision authz x'.2 <;> rfl

/-- The response to an accepted write. -/
def writeResponse (method : Method) (k : Str) (created : Bool) : Response :=
  if method = .put then putResponse k created else postResponse k

/-- A write walks over the ancestors, writes its entry, and returns by whether the key is
new. -/
theorem ldpRouter_of_insert {x : Exchange} {k : Str} {e : Entry}
    (h : mainSection x = some (.insert k e)) :
  ldpRouter x.1 x.2 = .act (.ensureAncestors k) fun _ => .act (.insert k e) fun created =>
    .ret (writeResponse x.2.method k created)
  := by
  rw [mainSection] at h
  split at h
  case h_3 k' body hmethod hkey hbody =>
    obtain ⟨rfl, rfl⟩ := StoreCmd.insert.inj (Option.some.inj h)
    obtain ⟨path, rfl, hrouter⟩ := ldpRouter_of_key x.1 hkey
    simp only [hrouter, handler, hmethod, handlePut_eq path x.2 hbody, writeResponse, if_true]
  case h_4 k' body hmethod hkey hbody =>
    obtain ⟨rfl, rfl⟩ := StoreCmd.insert.inj (Option.some.inj h)
    obtain ⟨path, rfl, hrouter⟩ := ldpRouter_of_key x.1 hkey
    simp only [hrouter, handler, hmethod, handlePost_eq path x.2 x.1 hbody, writeResponse,
      reduceCtorEq, if_false]
  all_goals cases h

/-! ### Pipelines that run alike -/

/-- The requests whose responses do not show what is secret. -/
def discreet (authz : AuthzState) (secret : Str → Bool) (x : Exchange) : Bool :=
  !reveals authz secret x

/-- Pipelines that run alike on stores that differ in what is secret. -/
abbrev Alike (authz : AuthzState) (secret : Str → Bool) (x : Exchange) :
    PipelineProg Response → PipelineProg Response → Prop :=
  Prog.Alike (serverMachine authz) (SameOutside secret) (SameShown (discreet authz secret) x)

/-- The same section is issued by both, and what follows runs alike. -/
theorem alike_section {x : Exchange} {c : StoreCmd} (hc : ∀ k, c = .get k → secret k = false)
    {next next' : c.Answer → PipelineProg Response}
    (h : ∀ r, Alike authz secret x (next r) (next' r)) :
  Alike authz secret x (.act (.store c) next) (.act (.store c) next')
  := by
  intro s s' r t same hexec
  obtain ⟨rfl, rfl⟩ := Prod.mk.inj (Option.some.inj hexec)
  obtain ⟨hstore, hanswer⟩ := same.exec c
  refine ⟨_, _, rfl, hstore, ?_⟩
  change Alike authz secret x (next (c.exec s).1) (next' (c.exec s').1)
  rw [hanswer hc]
  apply h _

/-- What follows the decision runs alike. -/
theorem alike_decided {x x' : Exchange} (h : AlikeRequests secret x x') :
  Alike authz secret x (decided authz x.1 x.2) (decided authz x'.1 x'.2)
  := by
  rcases h with rfl | h
  · cases hx : acceptedSection authz x with
    | none =>
        obtain ⟨response, hr⟩ := decided_of_no_section hx
        rw [hr]
        exact fun _ => rfl
    | some c =>
        -- the last section looks up a secret key, or it is answered the same
        have last : ∀ f : c.Answer → Response,
            Alike authz secret x (.act (.store c) fun r => .ret (f r))
              (.act (.store c) fun r => .ret (f r)) := by
          intro f
          by_cases hsecret : ∃ k, c = .get k ∧ secret k = true
          · obtain ⟨k, rfl, hk⟩ := hsecret
            intro s s' r t same hexec
            obtain ⟨rfl, rfl⟩ := Prod.mk.inj (Option.some.inj hexec)
            refine ⟨_, _, rfl, same, ?_⟩
            intro hshown
            simp [discreet, reveals, hx, hk] at hshown
          · apply alike_section
            · intro k hk
              by_contra hne
              apply hsecret ⟨k, hk, Bool.not_eq_false _ ▸ hne⟩
            · exact fun r _ => rfl
        obtain ⟨f, ⟨-, hf⟩ | ⟨k, -, hf⟩⟩ := decided_of_section hx
        · rw [hf]
          apply last f
        · rw [hf]
          apply alike_section (by simp) fun _ => last f
  · obtain ⟨k, e, e', hx, hx', hk⟩ := h.writes
    rw [decided, decided, ← h.decision_eq, ← h.origin]
    cases decision authz x.2 with
    | readerFailed => exact fun _ => rfl
    | rejected permissions err => exact fun _ => rfl
    | accepted permissions =>
        simp only [ldpRouter_of_insert hx, ldpRouter_of_insert hx', ← h.method]
        apply alike_section (by simp)
        intro _ s s' r t same hexec
        obtain ⟨rfl, rfl⟩ := Prod.mk.inj (Option.some.inj hexec)
        obtain ⟨hstore, hanswer⟩ := same.insert e e' (.inr hk)
        refine ⟨_, _, rfl, hstore, ?_⟩
        intro _
        apply congrArg (fun created : Bool => withCorsHeaders (x.2.headers.get .origin)
          (writeResponse x.2.method k created)) hanswer

/-- The whole pipelines of alike requests run alike, since they ask the same questions. -/
theorem alike_buildRouter {x x' : Exchange} (h : AlikeRequests secret x x') :
  Alike authz secret x (buildRouter x.1 x.2) (buildRouter x'.1 x'.2)
  := by
  have credentials : extractCredentials x.2 = extractCredentials x'.2 := by
    rcases h with rfl | h
    · rfl
    · apply h.credentials
  have modes : accessMap x.2 = accessMap x'.2 := by
    rcases h with rfl | h
    · rfl
    · rw [accessMap, accessMap, h.method, h.path]
  have origin : x.2.headers.get .origin = x'.2.headers.get .origin := by
    rcases h with rfl | h
    · rfl
    · apply h.origin
  have hdecided : Alike authz secret x (decided authz x.1 x.2) (decided authz x'.1 x'.2) :=
    alike_decided h
  rw [decided, decided, decision, decision, ← credentials, ← modes, ← origin] at hdecided
  rw [buildRouter, buildRouter, corsMiddleware, corsMiddleware, ← credentials, ← origin,
    authzMiddleware, authzMiddleware, ← modes]
  intro s s' r t same hexec
  obtain ⟨rfl, rfl⟩ := Prod.mk.inj (Option.some.inj hexec)
  refine ⟨_, _, rfl, same, ?_⟩
  simp only [Option.getD_some]
  revert hdecided
  cases authz.permissionReader (extractCredentials x.2) (accessMap x.2) with
  | error e => exact id
  | ok permissions =>
      intro hdecided s s' r t same hexec
      obtain ⟨rfl, rfl⟩ := Prod.mk.inj (Option.some.inj hexec)
      refine ⟨_, _, rfl, same, ?_⟩
      dsimp only [PipelineCmd.exec] at hdecided ⊢
      revert hdecided
      cases authz.authorizer (extractCredentials x.2) (accessMap x.2) permissions with
      | error e => exact id
      | ok u => exact id

/-! ### Runs of the server -/

/-- In two runs in which clients send the same requests, from stores with the same keys, and
what is stored and written under secret keys may differ, all responses are the same but those
to the requests that are accepted to read a secret key, and the stores differ in what is
secret at most. -/
theorem contents_confidential {Client : Type} [DecidableEq Client] (authz : AuthzState)
    (secret : Str → Bool) {s s' : LdpStore} (same : SameOutside secret s s')
    {turns turns' : List (Turn Client Exchange Empty)}
    (hturns : List.Forall₂ (Turn.Alike (AlikeRequests secret)) turns turns')
    {cfg : Config Client PipelineCmd PipelineCmd.Answer LdpStore Exchange Response}
    (h : (serverMachine authz).execute (Config.init s) turns = some cfg) :
  ∃ cfg', (serverMachine authz).execute (Config.init s') turns' = some cfg' ∧
    seen (discreet authz secret) cfg'.history = seen (discreet authz secret) cfg.history ∧
    SameOutside secret cfg.shared cfg'.shared
  := by
  apply Machine.seen_eq_of_execute _ _ _ hturns same h
  · exact fun x x' hx => alike_buildRouter hx
  · exact fun e => e.elim
  · intro x x' hx
    rw [discreet, discreet, hx.reveals_eq]

/-- Requests without a token are rejected. -/
def knownAgents : AuthzState where
  permissionReader := passThroughPermissionReader
  authorizer credentials _ _ :=
    if credentials.agent.isNone then .error (.unauthorized "no token".toList) else .ok ()

/-- `/a` is secret. -/
def secretDocument (k : Str) : Bool :=
  k == "/a".toList

/-- A request with a token that writes `/a`. -/
def putSecret (body : List UInt8) : Exchange :=
  (zeroSlug, ⟨.put, "/a".toList, [(.authorization, ⟨utf8 "Bearer t".toList, by decide⟩)], .ok body⟩)

/-- While `/a` is written with a token, it is asked for without one, and deleted with one. -/
def askMeanwhile (body : List UInt8) : List (Turn Bool Exchange Empty) :=
  let get : Exchange := (zeroSlug, ⟨.get, "/a".toList, [], .ok []⟩)
  let delete : Exchange := (zeroSlug, ⟨.delete, "/a".toList,
    [(.authorization, ⟨utf8 "Bearer t".toList, by decide⟩)], .ok []⟩)
  [.call false (putSecret body), .act false, .act false, .act false, .act false,
    .call true get, .act true, .act true, .ret true, .ret false,
    .call true delete, .act true, .act true, .act true, .ret true]

theorem contents_confidential_askMeanwhile :
  let cfg := (serverMachine knownAgents).after (Config.init LdpStore.new) (askMeanwhile [1])
  ∃ cfg', (serverMachine knownAgents).execute (Config.init LdpStore.new) (askMeanwhile [2])
      = some cfg' ∧
    seen (discreet knownAgents secretDocument) cfg'.history
      = seen (discreet knownAgents secretDocument) cfg.history ∧
    SameOutside secretDocument cfg.shared cfg'.shared
  := by
  have rewrites : AlikeRequests secretDocument (putSecret [1]) (putSecret [2]) :=
    .inr ⟨rfl, rfl, rfl, rfl, _, _, _, rfl, rfl, rfl⟩
  have hturns : List.Forall₂ (Turn.Alike (AlikeRequests secretDocument)) (askMeanwhile [1])
      (askMeanwhile [2]) := by
    apply List.Forall₂.cons (.call false rewrites)
    apply List.forall₂_same.mpr
    intro l _
    cases l with
    | call i x => exact .call i (.inl rfl)
    | act i => exact .act i
    | ret i => exact .ret i
    | env e => exact .env e
  apply contents_confidential knownAgents secretDocument (SameOutside.refl _) hturns rfl

end ServerCore
