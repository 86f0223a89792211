import SolidServer.Library.Observation
import SolidServer.ServerCore.Access
import SolidServer.ServerCore.Linearizability

/-!
# The server under concurrent requests

Clients send requests concurrently, and every request runs the whole pipeline: the question
to the permission reader, the one to the authorizer, and the lock sections of its handler are
single steps that those of other requests can come between.  The requests look as if they
were answered one after another: there is a sequential order of them in which every request
that is about a document, or that does not get to the store at all, has the response it got,
and in which the documents are those of the store.
-/

open Text Http HttpTypes Authz Atomic

namespace ServerCore

/-! ### The sections of the handlers -/

variable (path : Option Str) (req : Request)

theorem handleGet_eq :
  handleGet path req = .act (.get (resolvePath path)) fun found =>
    .ret (getResult (resolvePath path) (readHeader req .accept) found)
  := by
  rw [handleGet, LdpStore.get, key_resolvePath, Prog.call_bind]
  congr 1
  funext found
  cases found with
  | none => rfl
  | some entry =>
      simp only [getResult]
      cases unsatisfied (readHeader req .accept) entry <;> rfl

theorem handleHead_eq :
  handleHead path req = .act (.get (resolvePath path)) fun found =>
    .ret (headResult (resolvePath path) (readHeader req .accept) found)
  := by
  rw [handleHead, LdpStore.get, key_resolvePath, Prog.call_bind]
  congr 1
  funext found
  cases found with
  | none => rfl
  | some entry =>
      simp only [headResult]
      cases unsatisfied (readHeader req .accept) entry <;> rfl

/-- The entry that a request writes under the key. -/
def writtenEntry (req : Request) (k : Str) (body : List UInt8) : Entry :=
  ⟨body, requestContentType req, endsWith k '/'⟩

theorem handlePut_eq {body : List UInt8} (hbody : req.body = .ok body) :
  handlePut path req = .act (.ensureAncestors (resolvePath path)) fun _ =>
    .act (.insert (resolvePath path) (writtenEntry req (resolvePath path) body)) fun created =>
      .ret (putResponse (resolvePath path) created)
  := by
  simp only [handlePut, hbody, LdpStore.put]
  rw [key_resolvePath]
  rfl

theorem handlePost_eq (slug : Uuid) {body : List UInt8} (hbody : req.body = .ok body) :
  handlePost slug path req =
    .act (.ensureAncestors (childKey (resolvePath path) slug)) fun _ =>
      .act (.insert (childKey (resolvePath path) slug)
          (writtenEntry req (childKey (resolvePath path) slug) body)) fun _ =>
        .ret (postResponse (childKey (resolvePath path) slug))
  := by
  simp only [handlePost, hbody, LdpStore.put]
  rw [key_childKey]
  rfl

theorem handleDelete_eq :
  handleDelete path = .act (.remove (resolvePath path)) fun removed =>
    .ret (if removed then .ofStatus .noContent else notFound (resolvePath path))
  := by
  rw [handleDelete, LdpStore.delete, key_resolvePath, Prog.call_bind]
  congr 1
  funext removed
  cases removed <;> rfl

/-- The lock section of the handler that a request is about, if it has one: all that its
handler does to the store, except for the containers that it may add. -/
def mainSection (x : Exchange) : Option StoreCmd :=
  match x.2.method, requestKey x.2.path, x.2.body with
  | .get, some k, _ => some (.get k)
  | .head, some k, _ => some (.get k)
  | .put, some k, .ok body => some (.insert k (writtenEntry x.2 k body))
  | .post, some k, .ok body =>
      some (.insert (childKey k x.1) (writtenEntry x.2 (childKey k x.1) body))
  | .delete, some k, _ => some (.remove k)
  | _, _, _ => none

/-- The key whose ancestors are walked over before the section, if it writes. -/
def StoreCmd.walk : StoreCmd → Option Str
  | .insert k _ => some k
  | _ => none

/-- A handler has no section and returns at once, or issues its section and returns by the
answer, after a walk over ancestors if it writes. -/
inductive Sectioned (x : Exchange) : StoreProg Response → Prop where
  | none {response} (h : mainSection x = none) : Sectioned x (.ret response)
  | single {c} (f : c.Answer → Response) (h : mainSection x = some c) (hc : c.walk = none) :
      Sectioned x (.act c fun r => .ret (f r))
  | walk {c k} (f : c.Answer → Response) (h : mainSection x = some c) (hc : c.walk = some k) :
      Sectioned x (.act (.ensureAncestors k) fun _ => .act c fun r => .ret (f r))

theorem sectioned_ldpRouter (x : Exchange) :
  Sectioned x (ldpRouter x.1 x.2)
  := by
  cases hk : requestKey x.2.path with
  | none =>
      obtain ⟨response, -, hr⟩ := ldpRouter_of_no_key x.1 hk
      rw [hr]
      apply Sectioned.none
      rw [mainSection, hk]
      cases x.2.method <;> rfl
  | some k =>
      obtain ⟨path, rfl, hr⟩ := ldpRouter_of_key x.1 hk
      rw [hr, handler]
      cases hm : x.2.method with
      | get =>
          simp only [handleGet_eq]
          refine .single _ ?_ rfl
          rw [mainSection, hm, hk]
      | head =>
          simp only [handleHead_eq]
          refine .single _ ?_ rfl
          rw [mainSection, hm, hk]
      | put =>
          cases hbody : x.2.body with
          | error e =>
              simp only [handlePut_of_error path hbody]
              apply Sectioned.none
              rw [mainSection, hm, hk, hbody]
          | ok body =>
              simp only [handlePut_eq path x.2 hbody]
              refine .walk _ ?_ rfl
              rw [mainSection, hm, hk, hbody]
      | post =>
          cases hbody : x.2.body with
          | error e =>
              simp only [handlePost_of_error x.1 path hbody]
              apply Sectioned.none
              rw [mainSection, hm, hk, hbody]
          | ok body =>
              simp only [handlePost_eq path x.2 x.1 hbody]
              refine .walk (fun _ => postResponse (childKey (resolvePath path) x.1)) ?_ rfl
              rw [mainSection, hm, hk, hbody]
      | delete =>
          simp only [handleDelete_eq]
          refine .single _ ?_ rfl
          rw [mainSection, hm, hk]
      | options =>
          apply Sectioned.none
          rw [mainSection, hm]
      | patch =>
          apply Sectioned.none
          rw [mainSection, hm]
      | other name =>
          apply Sectioned.none
          rw [mainSection, hm]

/-! ### Stores with the same documents -/

/-- The section touches document keys only. -/
def StoreCmd.OnDocuments (c : StoreCmd) : Prop :=
  ∀ k ∈ c.keys, endsWith k '/' = false

/-- On stores with the same documents, a section leaves stores with the same documents, and
answers the same if it touches documents only. -/
theorem SameDocuments.exec {s t : LdpStore} (h : SameDocuments s t) (c : StoreCmd) :
  SameDocuments (c.exec s).2 (c.exec t).2 ∧ (c.OnDocuments → (c.exec s).1 = (c.exec t).1)
  := by
  cases c with
  | get k =>
      use h
      intro hk
      apply h k (hk k (List.mem_singleton_self k))
  | containsKey k =>
      use h
      intro hk
      apply decide_eq_decide.mpr (h.mem_iff (hk k (List.mem_singleton_self k)))
  | ensureAncestors k =>
      refine ⟨?_, fun _ => rfl⟩
      intro k' hk'
      change (s.ensureAncestors k).lookup k' = (t.ensureAncestors k).lookup k'
      rw [LdpStore.lookup_ensureAncestors_document s _ hk',
        LdpStore.lookup_ensureAncestors_document t _ hk', h k' hk']
  | insert k e =>
      constructor
      · intro k' hk'
        change (s.insert k e).lookup k' = (t.insert k e).lookup k'
        rw [LdpStore.lookup_insert, LdpStore.lookup_insert, h k' hk']
      · intro hk
        have same := h.mem_iff (hk k (List.mem_singleton_self k))
        apply congrArg (! ·) (decide_eq_decide.mpr same)
  | remove k =>
      constructor
      · intro k' hk'
        change (s.erase k).lookup k' = (t.erase k).lookup k'
        rw [LdpStore.lookup_erase, LdpStore.lookup_erase, h k' hk']
      · intro hk
        apply decide_eq_decide.mpr (h.mem_iff (hk k (List.mem_singleton_self k)))

/-- A walk over ancestors changes no document. -/
theorem SameDocuments.walked {s t : LdpStore} (h : SameDocuments s t) (k : Str) :
  SameDocuments s (t.ensureAncestors k) ∧ SameDocuments (s.ensureAncestors k) t
  := by
  constructor
  · intro k' hk'
    rw [h k' hk', LdpStore.lookup_ensureAncestors_document t _ hk']
  · intro k' hk'
    rw [← h k' hk', LdpStore.lookup_ensureAncestors_document s _ hk']

/-! ### The server -/

/-- A server whose clients send requests concurrently. -/
def serverMachine (authz : AuthzState) :
    Machine PipelineCmd PipelineCmd.Answer LdpStore Exchange Response Empty where
  impl x := buildRouter x.1 x.2
  exec c s := some (c.exec authz s)
  env := nofun

/-- The lock section a request is about, if the request is accepted and has one. -/
def acceptedSection (authz : AuthzState) (x : Exchange) : Option StoreCmd :=
  match decision authz x.2 with
  | .accepted _ => mainSection x
  | _ => none

/-- The request is answered without the store, or is about a document. -/
def AboutDocument (authz : AuthzState) (x : Exchange) : Prop :=
  ∀ c, acceptedSection authz x = some c → c.OnDocuments

/-- The response to a request that is answered alone, and the store it leaves. -/
def serverSpec (authz : AuthzState) (x : Exchange) (s : LdpStore) : Response × LdpStore :=
  (buildRouter x.1 x.2).run (PipelineCmd.exec authz) s

/-- The documents and what requests about documents are answered, with a request placed at
the section it is about. -/
def documentView (authz : AuthzState) : View PipelineCmd LdpStore Exchange Response where
  spec := serverSpec authz
  Same := SameDocuments
  Observed := AboutDocument authz
  atCall x := (acceptedSection authz x).isNone
  atCommand x
    | .store c => acceptedSection authz x = some c
    | _ => false

/-- What the pipeline is left with when the permission reader and the authorizer have been
asked. -/
def decided (authz : AuthzState) (slug : Uuid) (req : Request) : PipelineProg Response :=
  match decision authz req with
  | .readerFailed =>
      .ret (withCorsHeaders (req.headers.get .origin) (.ofStatus .internalServerError))
  | .rejected _ e => .ret (withCorsHeaders (req.headers.get .origin) (unauthorized e))
  | .accepted _ => do
      let res ← onStore (ldpRouter slug req)
      return withCorsHeaders (req.headers.get .origin) res

variable {authz : AuthzState}

/-- What holds of the pipeline after the decision and is not changed by questions before it
holds of the pipeline. -/
theorem buildRouter_of_decided (P : PipelineProg Response → Prop) {slug : Uuid}
    {req : Request} (h : P (decided authz slug req))
    (ask : ∀ c next, (∀ c', c ≠ .store c') →
      (∀ r, (serverMachine authz).Answers c r → P (next r)) → P (.act c next)) :
  P (buildRouter slug req)
  := by
  apply ask (.read (extractCredentials req) (accessMap req)) _ (by simp)
  rintro r ⟨s, t, hr⟩
  obtain ⟨rfl, rfl⟩ := Prod.mk.inj (Option.some.inj hr)
  rw [decided, decision] at h
  revert h
  cases authz.permissionReader (extractCredentials req) (accessMap req) with
  | error e => exact id
  | ok permissions =>
      intro h
      apply ask (.authorize (extractCredentials req) (accessMap req) permissions) _ (by simp)
      rintro r ⟨s, t, hr⟩
      obtain ⟨rfl, rfl⟩ := Prod.mk.inj (Option.some.inj hr)
      revert h
      cases hauth : authz.authorizer (extractCredentials req) (accessMap req) permissions with
      | error e =>
          intro h
          simpa [PipelineCmd.exec, hauth] using h
      | ok u =>
          intro h
          simpa [PipelineCmd.exec, hauth] using h

/-- The questions to the permission reader and the authorizer leave the store alone, so that
only the rest of the pipeline counts. -/
theorem run_decided (slug : Uuid) (req : Request) (s : LdpStore) :
  (buildRouter slug req).run (PipelineCmd.exec authz) s
    = (decided authz slug req).run (PipelineCmd.exec authz) s
  := by
  let Same (p : PipelineProg Response) : Prop := p.run (PipelineCmd.exec authz) s
    = (decided authz slug req).run (PipelineCmd.exec authz) s
  have decided_same : Same (decided authz slug req) := rfl
  apply buildRouter_of_decided Same decided_same
  intro c next hc ih
  cases c with
  | store c => exact absurd rfl (hc c)
  | read credentials modes => apply ih _ ⟨s, s, rfl⟩
  | authorize credentials modes permissions => apply ih _ ⟨s, s, rfl⟩

/-- A request without a section is answered without the store. -/
theorem decided_of_no_section {x : Exchange} (h : acceptedSection authz x = none) :
  ∃ response, decided authz x.1 x.2 = .ret response
  := by
  rw [acceptedSection] at h
  rw [decided]
  cases hd : decision authz x.2 with
  | readerFailed => exact ⟨_, rfl⟩
  | rejected permissions e => exact ⟨_, rfl⟩
  | accepted permissions =>
      simp only [hd] at h
      have sectioned := sectioned_ldpRouter x
      generalize ldpRouter x.1 x.2 = p at sectioned
      cases sectioned with
      | none _ => exact ⟨_, rfl⟩
      | single f hc _ => cases h.symm.trans hc
      | walk f hc _ => cases h.symm.trans hc

/-- A request with a section issues it and returns by the answer, after a walk over ancestors
if it writes. -/
theorem decided_of_section {x : Exchange} {c : StoreCmd}
    (h : acceptedSection authz x = some c) :
  ∃ f : c.Answer → Response,
    (c.walk = none ∧ decided authz x.1 x.2 = .act (.store c) fun r => .ret (f r)) ∨
      ∃ k, c.walk = some k ∧ decided authz x.1 x.2 =
        .act (.store (.ensureAncestors k)) fun _ => .act (.store c) fun r => .ret (f r)
  := by
  rw [acceptedSection] at h
  rw [decided]
  cases hd : decision authz x.2 with
  | readerFailed => simp [hd] at h
  | rejected permissions e => simp [hd] at h
  | accepted permissions =>
      simp only [hd] at h
      have sectioned := sectioned_ldpRouter x
      generalize ldpRouter x.1 x.2 = p at sectioned
      cases sectioned with
      | none hc => cases hc.symm.trans h
      | single f hc hwalk =>
          obtain rfl := Option.some.inj (hc.symm.trans h)
          exact ⟨fun r => withCorsHeaders (x.2.headers.get .origin) (f r), .inl ⟨hwalk, rfl⟩⟩
      | walk f hc hwalk =>
          obtain rfl := Option.some.inj (hc.symm.trans h)
          exact ⟨fun r => withCorsHeaders (x.2.headers.get .origin) (f r),
            .inr ⟨_, hwalk, rfl⟩⟩

/-- The section that a request is about is no walk over ancestors. -/
theorem acceptedSection_ne_walk (x : Exchange) (k : Str) :
  acceptedSection authz x ≠ some (.ensureAncestors k)
  := by
  rw [acceptedSection]
  split
  · rw [mainSection]
    split <;> simp
  · simp

/-- The questions and the walks over ancestors change no document. -/
theorem silent_of_not_store {c : PipelineCmd} (hc : ∀ c', c ≠ .store c') :
  (serverMachine authz).Silent (documentView authz) c
  := by
  intro t u r u' same hexec
  cases c with
  | store c => exact absurd rfl (hc c)
  | read credentials modes =>
      obtain ⟨-, rfl⟩ := Prod.mk.inj (Option.some.inj hexec)
      apply same
  | authorize credentials modes permissions =>
      obtain ⟨-, rfl⟩ := Prod.mk.inj (Option.some.inj hexec)
      apply same

theorem silent_walk (k : Str) :
  (serverMachine authz).Silent (documentView authz) (.store (.ensureAncestors k))
  := by
  intro t u r u' same hexec
  obtain ⟨-, rfl⟩ := Prod.mk.inj (Option.some.inj hexec)
  apply (same.walked k).1

/-- A request answered without the store idles. -/
theorem idles_buildRouter {x : Exchange} (h : acceptedSection authz x = none) :
  (serverMachine authz).Idles (documentView authz) x (buildRouter x.1 x.2)
  := by
  obtain ⟨response, hr⟩ := decided_of_no_section h
  use response
  constructor
  · apply buildRouter_of_decided ((serverMachine authz).Fades (documentView authz) x response)
    · rw [hr]
      exact fun _ => rfl
    · intro c next hc ih
      refine ⟨?_, silent_of_not_store hc, ih⟩
      cases c with
      | store c => exact absurd rfl (hc c)
      | read credentials modes => rfl
      | authorize credentials modes permissions => rfl
  · intro t u same
    simp only [documentView, serverSpec, run_decided, hr, Prog.run_ret]
    exact ⟨same, fun _ => trivial⟩

/-- A request about a section hinges on it. -/
theorem hinges_buildRouter {x : Exchange} {c : StoreCmd}
    (h : acceptedSection authz x = some c) :
  (serverMachine authz).Hinges (documentView authz) x (buildRouter x.1 x.2)
  := by
  obtain ⟨f, hf⟩ := decided_of_section h
  -- the section itself, after the store is as the request executed alone finds it
  have hinge : ∀ walk : LdpStore → LdpStore,
      (∀ t u, SameDocuments t u → SameDocuments (walk t) u) →
      (∀ t, serverSpec authz x t = (f (c.exec (walk t)).1, (c.exec (walk t)).2)) →
      (serverMachine authz).Hinges (documentView authz) x
        (.act (.store c) fun r => .ret (f r)) := by
    intro walk hwalk spec
    left
    constructor
    · simp [documentView, h]
    · intro t u r u' same hexec
      obtain ⟨rfl, rfl⟩ := Prod.mk.inj (Option.some.inj hexec)
      obtain ⟨same', answer⟩ := (hwalk t u same).exec c
      change SameDocuments (serverSpec authz x t).2 (c.exec u).2 ∧
        ∃ v, (AboutDocument authz x → f (c.exec u).1 = v) ∧
          (AboutDocument authz x → (serverSpec authz x t).1 = v)
      rw [spec]
      use same', f (c.exec u).1, fun _ => rfl
      intro about
      rw [answer (about c h)]
  apply buildRouter_of_decided ((serverMachine authz).Hinges (documentView authz) x)
  · rcases hf with ⟨-, hf⟩ | ⟨k, -, hf⟩
    · rw [hf]
      apply hinge id fun _ _ same => same
      intro t
      rw [serverSpec, run_decided, hf]
      rfl
    · rw [hf]
      right
      refine ⟨?_, silent_walk k, fun r _ => ?_⟩
      · simp [documentView, acceptedSection_ne_walk]
      · apply hinge (fun t => t.ensureAncestors k) fun t u same => (same.walked k).2
        intro t
        rw [serverSpec, run_decided, hf]
        rfl
  · intro c next hc ih
    right
    refine ⟨?_, silent_of_not_store hc, ih⟩
    cases c with
    | store c => exact absurd rfl (hc c)
    | read credentials modes => rfl
    | authorize credentials modes permissions => rfl

theorem faithful_documentView (authz : AuthzState) :
  (serverMachine authz).Faithful (documentView authz)
  := by
  intro x
  cases h : acceptedSection authz x with
  | none =>
      left
      exact ⟨by simp [documentView, h], idles_buildRouter h⟩
  | some c =>
      right
      exact ⟨by simp [documentView, h], hinges_buildRouter h⟩

/-- Concurrent requests, whatever the permission reader and the authorizer say to them, have a
sequential order in which the requests about documents, and those that do not get to the
store, have the responses they got, and which leaves the documents of the store. -/
theorem server_linearizable {Client : Type} [DecidableEq Client] (authz : AuthzState)
    (s : LdpStore)
    (cfg : Config Client PipelineCmd PipelineCmd.Answer LdpStore Exchange Response)
    (h : (serverMachine authz).Reachable (Config.init s) cfg) :
  ∃ order, Linearizes cfg.history order ∧
    (∀ n x response, .ret n x response ∈ cfg.history → AboutDocument authz x →
      (n, response) ∈ outcomes (serverSpec authz) order s) ∧
    ∀ k, endsWith k '/' = false →
      (final (serverSpec authz) order s).lookup k = cfg.shared.lookup k
  := Machine.linearizes_of_faithful (faithful_documentView authz) (fun _ _ => rfl) h

/-- One client puts `/a/b` while another one asks for it, before and after the entry is
inserted. -/
def interruptedRequest : List (Turn Bool Exchange Empty) :=
  let put : Exchange := (zeroSlug, ⟨.put, "/a/b".toList, [], .ok [1]⟩)
  let get : Exchange := (zeroSlug, ⟨.get, "/a/b".toList, [], .ok []⟩)
  [.call false put, .act false, .act false, .act false,
    .call true get, .act true, .act true, .act true, .ret true,
    .act false, .call true get, .act true, .act true, .act true, .ret true, .ret false]

theorem server_linearizable_interruptedRequest :
  let cfg := (serverMachine .passThrough).after (Config.init LdpStore.new) interruptedRequest
  ∃ order, Linearizes cfg.history order ∧
    (∀ n x response, .ret n x response ∈ cfg.history → AboutDocument .passThrough x →
      (n, response) ∈ outcomes (serverSpec .passThrough) order LdpStore.new) ∧
    ∀ k, endsWith k '/' = false →
      (final (serverSpec .passThrough) order LdpStore.new).lookup k = cfg.shared.lookup k
  := server_linearizable .passThrough LdpStore.new _ (Machine.reachable_after interruptedRequest)

/-! ### Reads after writes -/

/-- What a section leaves under the key, if it is one that changes it. -/
def StoreCmd.written (k : Str) : StoreCmd → Option (Option Entry)
  | .insert k' e => if k' = k then some (some e) else none
  | .remove k' => if k' = k then some none else none
  | _ => none

theorem StoreCmd.lookup_exec (c : StoreCmd) (s : LdpStore) {k : Str}
    (hk : endsWith k '/' = false) :
  (c.exec s).2.lookup k = (c.written k).getD (s.lookup k)
  := by
  cases c with
  | get k' => rfl
  | containsKey k' => rfl
  | ensureAncestors k' => apply LdpStore.lookup_ensureAncestors_document s _ hk
  | insert k' e =>
      rw [exec, written, LdpStore.lookup_insert]
      rcases eq_or_ne k' k with rfl | hne
      · simp
      · simp [hne, hne.symm]
  | remove k' =>
      rw [exec, written, LdpStore.lookup_erase]
      rcases eq_or_ne k' k with rfl | hne
      · simp
      · simp [hne, hne.symm]

/-- What a request leaves under the key, if it is one that changes it. -/
def written (authz : AuthzState) (k : Str) (x : Exchange) : Option (Option Entry) :=
  (acceptedSection authz x).bind (StoreCmd.written k)

/-- A request answered alone changes a document as its section does. -/
theorem lookup_serverSpec (x : Exchange) (s : LdpStore) {k : Str} (hk : endsWith k '/' = false) :
  (serverSpec authz x s).2.lookup k = (written authz k x).getD (s.lookup k)
  := by
  rw [serverSpec, run_decided, written]
  cases h : acceptedSection authz x with
  | none =>
      obtain ⟨response, hr⟩ := decided_of_no_section h
      rw [hr]
      rfl
  | some c =>
      obtain ⟨f, ⟨-, hf⟩ | ⟨k', -, hf⟩⟩ := decided_of_section h
      · rw [hf]
        apply c.lookup_exec s hk
      · rw [hf, Option.bind_some, ← LdpStore.lookup_ensureAncestors_document s k' hk]
        apply c.lookup_exec (s.ensureAncestors k') hk

/-- Requests that do not change a document, answered one after another, keep it. -/
theorem lookup_final {order : List (ℕ × Exchange)} {k : Str} (hk : endsWith k '/' = false)
    (h : ∀ n x, (n, x) ∈ order → written authz k x = none) (s : LdpStore) :
  (final (serverSpec authz) order s).lookup k = s.lookup k
  := by
  apply final_invariant (serverSpec authz) fun t => t.lookup k = s.lookup k
  · intro n x t hx ht
    rw [lookup_serverSpec x t hk, h n x hx]
    apply ht
  · rfl

/-- A request that reads a document is answered by what is stored there. -/
theorem serverSpec_read {x : Exchange} {k : Str} (hk : endsWith k '/' = false)
    (h : acceptedSection authz x = some (.get k)) {s t : LdpStore}
    (hst : s.lookup k = t.lookup k) :
  (serverSpec authz x s).1 = (serverSpec authz x t).1
  := by
  obtain ⟨f, ⟨-, hf⟩ | ⟨k', -, hf⟩⟩ := decided_of_section h
  · rw [serverSpec, serverSpec, run_decided, run_decided, hf]
    apply congrArg f hst
  · rw [serverSpec, serverSpec, run_decided, run_decided, hf]
    apply congrArg f
    change (s.ensureAncestors k').lookup k = (t.ensureAncestors k').lookup k
    rw [LdpStore.lookup_ensureAncestors_document s _ hk,
      LdpStore.lookup_ensureAncestors_document t _ hk, hst]

/-- The operation with ticket `a` stands alone between its call and the return of the one with
ticket `b`: every other one that is called and satisfies `P` returns before the call of the
first or is called after the return of the second. -/
def Undisturbed {Client C : Type} {R : C → Type} {Op Val : Type}
    (history : List (Event Client C R Op Val)) (P : Op → Prop) (a b : ℕ) : Prop :=
  ∀ j n op, .call j n op ∈ history → P op → n ≠ a →
    (∃ v i op', Before history (.ret n op v) (.call i a op')) ∨
      ∃ v op', Before history (.ret b op' v) (.call j n op)

/-- A read of a document that is called after a request has changed it, with no other change
of it in between or overlapping the two, is answered as if the document were as that request
left it. -/
theorem reads_latest_write {Client : Type} [DecidableEq Client] (authz : AuthzState)
    (s : LdpStore)
    (cfg : Config Client PipelineCmd PipelineCmd.Answer LdpStore Exchange Response)
    (h : (serverMachine authz).Reachable (Config.init s) cfg)
    (k : Str) (hk : endsWith k '/' = false) (x y : Exchange) (found : Option Entry)
    (hx : written authz k x = some found) (hy : acceptedSection authz y = some (.get k))
    (a b : ℕ) (i : Client) (response response' : Response)
    (hab : Before cfg.history (.ret a x response) (.call i b y))
    (hb : .ret b y response' ∈ cfg.history)
    (alone : Undisturbed cfg.history (fun z => written authz k z ≠ none) a b)
    (t : LdpStore) (ht : t.lookup k = found) :
  response' = (serverSpec authz y t).1
  := by
  obtain ⟨order, linearizes, values, -⟩ :=
    Machine.linearizes_of_faithful (faithful_documentView authz) (fun _ _ => rfl) h
  have sound := Sound.of_reaches h
  have placed := linearizes.returned b y response' hb
  obtain ⟨l₁, l₂, rfl, hl₁, hl₂⟩ := linearizes.realTime a x response i b y hab placed
  obtain ⟨before, between₁, rfl⟩ := List.append_of_mem hl₁
  obtain ⟨between₂, behind, rfl⟩ := List.append_of_mem hl₂
  have split : before ++ (a, x) :: between₁ ++ (between₂ ++ (b, y) :: behind)
      = (before ++ (a, x) :: (between₁ ++ between₂)) ++ (b, y) :: behind := by
    simp
  rw [split] at linearizes values
  have nodup := linearizes.nodup.of_map
  -- a request between the two in the order does not change the document
  have keeps : ∀ n z, (n, z) ∈ between₁ ++ between₂ → written authz k z = none := by
    intro n z hz
    by_contra hwritten
    have inner : Before ((before ++ (a, x) :: (between₁ ++ between₂)) ++ (b, y) :: behind)
        (n, z) (b, y) := by
      use before ++ (a, x) :: (between₁ ++ between₂), (b, y) :: behind, rfl
      use List.mem_append_right _ (List.mem_cons_of_mem _ hz)
      apply List.mem_cons_self
    have outer : Before ((before ++ (a, x) :: (between₁ ++ between₂)) ++ (b, y) :: behind)
        (a, x) (n, z) := by
      use before ++ [(a, x)], (between₁ ++ between₂) ++ (b, y) :: behind, by simp, by simp
      apply List.mem_append_left _ hz
    obtain ⟨j, hj⟩ := linearizes.called n z inner.left_mem
    have hne : n ≠ a := by
      rintro rfl
      obtain rfl : x = z := sound.op_eq hab.left_mem hj rfl
      apply outer.asymm nodup outer
    rcases alone j n z hj hwritten hne with ⟨v, i', x', hx'⟩ | ⟨v, y', hy'⟩
    · obtain rfl : x = x' := sound.op_eq hab.left_mem hx'.right_mem rfl
      apply outer.asymm nodup (linearizes.realTime _ _ _ _ _ _ hx' outer.left_mem)
    · obtain rfl : y = y' := sound.op_eq hb hy'.left_mem rfl
      apply inner.asymm nodup (linearizes.realTime _ _ _ _ _ _ hy' inner.left_mem)
  have about : AboutDocument authz y := by
    intro c hc k' hk'
    obtain rfl := Option.some.inj (hy.symm.trans hc)
    obtain rfl := List.mem_singleton.mp hk'
    apply hk
  have left : (final (serverSpec authz) (before ++ (a, x) :: (between₁ ++ between₂)) s).lookup k
      = t.lookup k := by
    rw [final_append, final_cons, lookup_final hk keeps, lookup_serverSpec x _ hk, hx, ht]
    rfl
  rw [eq_of_mem_outcomes _ linearizes.nodup (values b y response' hb about)]
  apply serverSpec_read hk hy left

/-- `PUT` of a document. -/
def putRequest (path : Str) (body : List UInt8) : Exchange :=
  (zeroSlug, ⟨.put, path, [], .ok body⟩)

/-- `GET` of a document. -/
def getRequest (path : Str) : Exchange :=
  (zeroSlug, ⟨.get, path, [], .ok []⟩)

/-- One client puts `/a` and then asks for it, while another one puts `/b`. -/
def readAfterWrite : List (Turn Bool Exchange Empty) :=
  [.call false (putRequest "/a".toList [1]), .act false, .act false, .act false, .act false,
    .ret false,
    .call true (putRequest "/b".toList [2]), .act true, .act true,
    .call false (getRequest "/a".toList), .act false, .act false, .act true, .act false,
    .ret false]

/-- The calls of a history. -/
def calls {Client C : Type} {R : C → Type} {Op Val : Type}
    (history : List (Event Client C R Op Val)) : List (ℕ × Op) :=
  history.filterMap fun
    | .call _ n op => some (n, op)
    | _ => none

theorem mem_calls {Client C : Type} {R : C → Type} {Op Val : Type}
    {history : List (Event Client C R Op Val)} {n : ℕ} {op : Op} :
  (n, op) ∈ calls history ↔ ∃ i, .call i n op ∈ history
  := by
  rw [calls, List.mem_filterMap]
  constructor
  · rintro ⟨e, he, h⟩
    cases e with
    | call i m op' =>
        obtain ⟨rfl, rfl⟩ := Prod.mk.inj (Option.some.inj h)
        exact ⟨i, he⟩
    | act _ _ _ _ | ret _ _ _ => cases h
  · rintro ⟨i, hi⟩
    exact ⟨_, hi, rfl⟩

theorem reads_latest_write_readAfterWrite :
  let cfg := (serverMachine .passThrough).after (Config.init LdpStore.new) readAfterWrite
  let read := (serverSpec .passThrough (getRequest "/a".toList) cfg.shared).1
  .ret 2 (getRequest "/a".toList) read ∈ cfg.history ∧
    read = (serverSpec .passThrough (getRequest "/a".toList)
      (LdpStore.new.insert "/a".toList
        (writtenEntry (putRequest "/a".toList [1]).2 "/a".toList [1]))).1
  := by
  intro cfg read
  have hb : .ret 2 (getRequest "/a".toList) read ∈ cfg.history :=
    List.mem_of_getElem? (i := 14) rfl
  use hb
  have hcalls : calls cfg.history = [(0, putRequest "/a".toList [1]),
      (1, putRequest "/b".toList [2]), (2, getRequest "/a".toList)] := rfl
  apply reads_latest_write .passThrough LdpStore.new cfg
    (Machine.reachable_after readAfterWrite) "/a".toList rfl (putRequest "/a".toList [1])
    (getRequest "/a".toList) (some (writtenEntry (putRequest "/a".toList [1]).2 "/a".toList [1]))
    rfl rfl 0 2 false (serverSpec .passThrough (putRequest "/a".toList [1]) LdpStore.new).1 read
  · use cfg.history.take 6, cfg.history.drop 6, (List.take_append_drop 6 _).symm
    exact ⟨List.mem_of_getElem? (i := 5) rfl, List.mem_of_getElem? (i := 3) rfl⟩
  · apply hb
  · intro j n z hz hwritten hn
    have hmem := mem_calls.mpr ⟨j, hz⟩
    rw [hcalls] at hmem
    simp only [List.mem_cons, Prod.mk.injEq, List.not_mem_nil, or_false] at hmem
    rcases hmem with ⟨rfl, -⟩ | ⟨-, rfl⟩ | ⟨-, rfl⟩
    · exact absurd rfl hn
    · exact absurd rfl hwritten
    · exact absurd rfl hwritten
  · rfl

end ServerCore
