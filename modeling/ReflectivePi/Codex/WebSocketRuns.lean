import ReflectivePi.Codex.WebSocketCache
import ReflectivePi.Lib.LabelledRun

/-!
# Codex — cached connections in every run

Whatever the order of requests, sockets, timers and aborts, a connection
serves one request at a time. A delta continues the last response of its
connection, and a connection that failed is not used again, as long as every
response that completes on a kept connection replaces the continuation there
and its request ends well.
-/

namespace ReflectivePi.Codex

open List

variable {ι ρ β : Type}

/-- The delta sent continues the response that completed last. -/
structure SentRequest.Continues (x : SentRequest ι ρ) (id : String) (last : Completed ι ρ) :
    Prop where
  response : last.responseId = some id
  input : last.request.items ++ last.items ++ x.body.items = x.full.items
  lastRest : last.request.rest = x.full.rest
  rest : x.body.rest = x.full.rest

structure SentRequest.Proper (x : SentRequest ι ρ) : Prop where
  fresh : x.connection.dropped = false
  continues : ∀ id, x.body.previousResponseId = some id →
    ∃ last, x.connection.last = some last ∧ x.Continues id last

/-- The request uses the connection. -/
def Sockets.Holds (s : Sockets ι ρ β) (r id : Nat) : Prop :=
  ∃ request, s.requests[r]? = some request ∧ request.connection? = some id

/-- All requests sent were proper, and no connection serves two requests. -/
structure Sockets.Proper (s : Sockets ι ρ β) : Prop where
  sent : ∀ x ∈ s.sent, x.Proper
  alone : ∀ r r' id, s.Holds r id → s.Holds r' id → r = r'

/-- The request responded, and its connection was kept. -/
def RequestPhase.isKept : RequestPhase → Bool
  | .returned (some _) (.responded _) => true
  | _ => false

/-- The continuation is that of the last response. -/
def Connection.Continued (connection : Connection ι ρ) : Prop :=
  ∀ k, connection.continuation = some k → connection.last = some {
      responseId := some k.lastResponseId
      request := k.lastRequestBody
      items := k.lastResponseItems }

/-- A request whose connection was kept ended well. -/
def Request.Clean (request : Request ι ρ β) : Prop :=
  ∀ id status, request.phase = .returned (some id) (.responded status) →
    status = false ∧ request.aborted = false

structure Sockets.Inv (s : Sockets ι ρ β) : Prop where
  held : ∀ r id, s.Holds r id → ∃ c, s.connections[id]? = some c ∧ c.busy = true ∧ c.dropped = false
  alone : ∀ r r' id, s.Holds r id → s.Holds r' id → r = r'
  cached : ∀ key id, s.cache key = some id →
    ∃ c, s.connections[id]? = some c ∧ c.key = some key ∧ c.dropped = false
  continued : ∀ (id : Nat) c, s.connections[id]? = some c → c.dropped = false → c.Continued
  clean : ∀ (r : Nat) request, s.requests[r]? = some request → request.Clean
  sent : ∀ x ∈ s.sent, x.Proper

namespace Sockets

variable {s : Sockets ι ρ β}

theorem Inv.proper (h : s.Inv) : s.Proper := ⟨h.sent, h.alone⟩

/-! ## Small changes -/

variable {r : Nat} {request request' : Request ι ρ β}

theorem holds_setRequest {r' id : Nat} (hreq : s.requests[r]? = some request) :
    (s.setRequest r request').Holds r' id ↔
      if r = r' then request'.connection? = some id else s.Holds r' id := by
  have hlt := (List.getElem?_eq_some_iff.mp hreq).1
  by_cases hr : r = r'
  · subst hr
    rw [if_pos rfl, Holds, setRequest]
    simp [getElem?_set_self hlt]
  · rw [if_neg hr, Holds, setRequest]
    simp only [getElem?_set_ne hr]
    rfl

theorem clean_setRequest (h : s.Inv) (hclean : request'.Clean) :
    ∀ (r' : Nat) request, (s.setRequest r request').requests[r']? = some request →
      request.Clean := by
  intro r' request hget
  have hget : (s.requests.set r request')[r']? = some request := hget
  by_cases hr : r = r'
  · subst hr
    rw [getElem?_set_self'] at hget
    obtain ⟨_, _, rfl⟩ := Option.map_eq_some_iff.mp hget
    exact hclean
  · rw [getElem?_set_ne hr] at hget
    exact h.clean r' request hget

theorem Inv.setRequest (h : s.Inv) (hreq : s.requests[r]? = some request)
    (hconn : ∀ id, request'.connection? = some id → request.connection? = some id)
    (hclean : request'.Clean) : (s.setRequest r request').Inv := by
  have hsub : ∀ r' id, (s.setRequest r request').Holds r' id → s.Holds r' id := by
    intro r' id hholds
    rw [holds_setRequest hreq] at hholds
    by_cases hr : r = r'
    · rw [if_pos hr] at hholds
      exact ⟨request, hr ▸ hreq, hconn id hholds⟩
    · rwa [if_neg hr] at hholds
  exact {
    held := fun r' id hholds => h.held r' id (hsub r' id hholds)
    alone := fun r₁ r₂ id h₁ h₂ => h.alone r₁ r₂ id (hsub r₁ id h₁) (hsub r₂ id h₂)
    cached := h.cached
    continued := h.continued
    clean := clean_setRequest h hclean
    sent := h.sent }

variable {c : Connection ι ρ}

theorem Inv.of_holds (h : s.Inv) {id : Nat} (hc : s.connections[id]? = some c)
    (hholds : s.Holds r id) : c.busy = true ∧ c.dropped = false := by
  obtain ⟨c', hc', hboth⟩ := h.held r id hholds
  obtain rfl := Option.some.inj (hc.symm.trans hc')
  exact hboth

theorem Inv.of_cached (h : s.Inv) {key : CacheKey} {id : Nat} (hc : s.connections[id]? = some c)
    (hkeyed : s.cache key = some id) : c.key = some key ∧ c.dropped = false := by
  obtain ⟨c', hc', hboth⟩ := h.cached key id hkeyed
  obtain rfl := Option.some.inj (hc.symm.trans hc')
  exact hboth

theorem Inv.hold (h : s.Inv) {id : Nat}
    (hreq : s.requests[r]? = some request) (hconn : request'.connection? = some id)
    (hfree : ∀ r', ¬ s.Holds r' id) (hc : s.connections[id]? = some c)
    (hbusy : c.busy = true) (hdropped : c.dropped = false) (hclean : request'.Clean) :
    (s.setRequest r request').Inv where
  held r' id' hholds := by
    rw [holds_setRequest hreq] at hholds
    by_cases hr : r = r'
    · rw [if_pos hr, hconn] at hholds
      obtain rfl := Option.some.inj hholds
      exact ⟨c, hc, hbusy, hdropped⟩
    · rw [if_neg hr] at hholds
      exact h.held r' id' hholds
  alone r₁ r₂ id' h₁ h₂ := by
    rw [holds_setRequest hreq] at h₁ h₂
    by_cases hr₁ : r = r₁ <;> by_cases hr₂ : r = r₂
    · omega
    · rw [if_pos hr₁, hconn] at h₁
      rw [if_neg hr₂] at h₂
      obtain rfl := Option.some.inj h₁
      exact absurd h₂ (hfree r₂)
    · rw [if_neg hr₁] at h₁
      rw [if_pos hr₂, hconn] at h₂
      obtain rfl := Option.some.inj h₂
      exact absurd h₁ (hfree r₁)
    · rw [if_neg hr₁] at h₁
      rw [if_neg hr₂] at h₂
      exact h.alone r₁ r₂ id' h₁ h₂
  cached := h.cached
  continued := h.continued
  clean := clean_setRequest h hclean
  sent := h.sent

theorem Inv.setConnection (h : s.Inv) {id : Nat} {c' : Connection ι ρ}
    (hc : s.connections[id]? = some c) (hkey : c'.key = c.key)
    (hheld : ∀ r, s.Holds r id → c'.busy = true ∧ c'.dropped = false)
    (hcached : ∀ key, s.cache key = some id → c'.dropped = false)
    (hcontinued : c'.dropped = false → c'.Continued) : (s.setConnection id c').Inv := by
  have hlt := (List.getElem?_eq_some_iff.mp hc).1
  have hself : (s.setConnection id c').connections[id]? = some c' := getElem?_set_self hlt
  have hother : ∀ j, id ≠ j → (s.setConnection id c').connections[j]? = s.connections[j]? :=
    fun j hj => getElem?_set_ne hj
  exact {
    held := fun r j hholds => by
      by_cases hj : id = j
      · subst hj
        exact ⟨c', hself, hheld r hholds⟩
      · rw [hother j hj]
        exact h.held r j hholds
    alone := h.alone
    cached := fun key j hkeyed => by
      by_cases hj : id = j
      · subst hj
        exact ⟨c', hself, hkey.trans (h.of_cached hc hkeyed).1, hcached key hkeyed⟩
      · rw [hother j hj]
        exact h.cached key j hkeyed
    continued := fun j other hget hdropped => by
      by_cases hj : id = j
      · subst hj
        rw [hself] at hget
        obtain rfl := Option.some.inj hget
        exact hcontinued hdropped
      · rw [hother j hj] at hget
        exact h.continued j other hget hdropped
    clean := h.clean
    sent := h.sent }

theorem Inv.shrink (h : s.Inv) {cache : CacheKey → Option Nat}
    (hsub : ∀ key id, cache key = some id → s.cache key = some id) :
    Inv { s with cache := cache } where
  held := h.held
  alone := h.alone
  cached key id hkeyed := h.cached key id (hsub key id hkeyed)
  continued := h.continued
  clean := h.clean
  sent := h.sent

theorem forget_some {key key' : CacheKey} {id id' : Nat}
    (h : (s.forget key id).cache key' = some id') :
    s.cache key' = some id' ∧ ¬ (key' = key ∧ id' = id) := by
  have h : (if key' = key ∧ s.cache key' = some id then none else s.cache key') = some id' := h
  split at h
  · cases h
  · rename_i hnot
    refine ⟨h, fun hboth => hnot ⟨hboth.1, ?_⟩⟩
    rw [h, hboth.2]

theorem Inv.forget (h : s.Inv) (key : CacheKey) (id : Nat) : (s.forget key id).Inv :=
  h.shrink fun _ _ hkeyed => (forget_some hkeyed).1

theorem Inv.recordFailure (h : s.Inv) (sessionId : Option String) :
    (s.recordFailure sessionId).Inv := by
  cases sessionId with
  | none => exact h
  | some sessionId => exact ⟨h.held, h.alone, h.cached, h.continued, h.clean, h.sent⟩

theorem setRequest_recordFailure (s : Sockets ι ρ β) (r : Nat) (request : Request ι ρ β)
    (sessionId : Option String) :
    (s.recordFailure sessionId).setRequest r request =
      (s.setRequest r request).recordFailure sessionId := by
  cases sessionId <;> rfl

theorem Inv.free (h : s.Inv) {id : Nat} (hc : s.connections[id]? = some c)
    (hbusy : c.busy = false) (r : Nat) : ¬ s.Holds r id := by
  intro hholds
  rw [(h.of_holds hc hholds).1] at hbusy
  cases hbusy

/-! ## Acquire and release -/

/-- The phase is not one of a finished response, and a connection it names is
free to use. -/
structure Acquired (s : Sockets ι ρ β) (phase : RequestPhase) : Prop where
  inv : s.Inv
  free : ∀ (request : Request ι ρ β) id,
    Request.connection? { request with phase := phase } = some id → (∀ r, ¬ s.Holds r id) ∧
        ∃ c, s.connections[id]? = some c ∧ c.busy = true ∧ c.dropped = false
  clean : ∀ request : Request ι ρ β, Request.Clean { request with phase := phase }

theorem Acquired.connecting (h : s.Inv) (shared : Bool) : Acquired s (.connecting shared) where
  inv := h
  free request id hconn := by cases hconn
  clean request id status hphase := by cases hphase

theorem acquire_acquired (h : s.Inv) (request : Request ι ρ β) (env : SocketEnv) :
    Acquired (s.acquire request env).1 (s.acquire request env).2 := by
  rw [acquire]
  cases request.key? with
  | none => exact .connecting h false
  | some key =>
    cases hcache : s.cache key with
    | none =>
      simp only [hcache]
      exact .connecting h true
    | some id =>
      simp only [hcache]
      obtain ⟨c, hc, hkey, hdropped⟩ := h.cached key id hcache
      simp only [hc]
      have hidle : (s.setConnection id { c with idleTimer := false }).Inv :=
        h.setConnection hc rfl (fun _ => h.of_holds (c := c) hc) (fun _ _ => hdropped)
          (h.continued id c hc)
      have hforget := Acquired.connecting (hidle.forget key id) true
      split
      · exact hforget
      · split
        · rename_i hfree
          rw [Bool.and_eq_true, Bool.not_eq_true'] at hfree
          have hnone := h.free hc hfree.1
          refine ⟨?_, fun request' id' hconn => ?_, fun request' id' status hphase => ?_⟩
          · exact h.setConnection hc rfl (fun r hholds => absurd hholds (hnone r))
              (fun _ _ => hdropped) (h.continued id c hc)
          · obtain rfl := Option.some.inj hconn
            refine ⟨hnone, _, getElem?_set_self ?_, rfl, hdropped⟩
            exact (List.getElem?_eq_some_iff.mp hc).1
          · cases hphase
        · split
          · exact .connecting hidle false
          · exact hforget

theorem acquire_requests (s : Sockets ι ρ β) (request : Request ι ρ β) (env : SocketEnv) :
    (s.acquire request env).1.requests = s.requests := by
  rw [acquire]
  split
  · rfl
  · split
    · rfl
    · split
      · rfl
      · dsimp only
        split
        · rfl
        · split
          · rfl
          · split <;> rfl

theorem Inv.startAttempt (h : s.Inv) (hreq : s.requests[r]? = some request) (env : SocketEnv) :
    (s.startAttempt r request' env).Inv := by
  have hacq := acquire_acquired h request' env
  have hrequests := acquire_requests s request' env
  dsimp only [Sockets.startAttempt]
  rw [← hrequests] at hreq
  cases hconn : Request.connection? { request' with phase := (s.acquire request' env).2 } with
  | none =>
    refine hacq.inv.setRequest hreq (fun id hid => ?_) (hacq.clean request')
    rw [hconn] at hid
    cases hid
  | some id =>
    obtain ⟨hfree, c, hc, hbusy, hdropped⟩ := hacq.free request' id hconn
    exact hacq.inv.hold hreq hconn hfree hc hbusy hdropped (hacq.clean request')

theorem release_kept {id id' : Nat} {keep : Bool} {env : SocketEnv}
    (h : (s.release id c keep env).2 = some id') :
    keep = true ∧ env.reusable = true ∧ c.key.isSome = true := by
  rw [release] at h
  split at h
  · cases h
  · split at h
    · cases h
    · rename_i hkey hkeep
      simp only [Bool.or_eq_true, Bool.not_eq_true', not_or, Bool.not_eq_false] at hkeep
      exact ⟨hkeep.1, hkeep.2, by rw [hkey]; rfl⟩

theorem Inv.release (h : s.Inv) {id : Nat} {c' : Connection ι ρ}
    (hc : s.connections[id]? = some c) (hkey : c'.key = c.key) (hfree : ∀ r, ¬ s.Holds r id)
    (hdropped : c'.dropped = false) (keep : Bool) (env : SocketEnv)
    (hcontinued : keep = true → env.reusable = true → c'.key.isSome = true → c'.Continued) :
    (s.release id c' keep env).1.Inv := by
  rw [Sockets.release]
  cases hckey : c'.key with
  | none =>
    refine h.setConnection hc (hckey.symm.trans hkey)
      (fun r hholds => absurd hholds (hfree r)) ?_ ?_
    · intro key hkeyed
      have hbkey := (h.of_cached hc hkeyed).1
      rw [← hkey, hckey] at hbkey
      cases hbkey
    nofun
  | some key =>
    dsimp only
    split
    · have hforget := h.forget key id
      refine hforget.setConnection hc (hckey.symm.trans hkey)
        (fun r hholds => absurd hholds (hfree r)) ?_ ?_
      · intro key' hkeyed
        obtain ⟨hold, hnot⟩ := forget_some hkeyed
        have hbkey := (h.of_cached hc hold).1
        rw [← hkey, hckey] at hbkey
        exact absurd ⟨(Option.some.inj hbkey).symm, rfl⟩ hnot
      nofun
    · rename_i hkeep
      simp only [Bool.or_eq_true, Bool.not_eq_true', not_or, Bool.not_eq_false] at hkeep
      refine h.setConnection hc (hckey.symm.trans hkey)
        (fun r hholds => absurd hholds (hfree r)) (fun _ _ => hdropped) (fun _ => ?_)
      exact hcontinued hkeep.1 hkeep.2 (by rw [hckey]; rfl)

theorem setRequest_release (s : Sockets ι ρ β) (r id : Nat) (request : Request ι ρ β)
    (c : Connection ι ρ) (keep : Bool) (env : SocketEnv) :
    (s.release id c keep env).1.setRequest r request =
      ((s.setRequest r request).release id c keep env).1 := by
  rw [release, release]
  cases c.key with
  | none => rfl
  | some key =>
    dsimp only
    split <;> rfl

/-! ## The events -/

/-- The request continues the connection's last response by a delta. -/
def SendsDelta [DecidableEq ι] [DecidableEq ρ] (request : Request ι ρ β)
    (connection : Connection ι ρ) : Prop :=
  request.useCachedContext = true ∧ connection.key.isSome = true ∧ ∃ k ∈ connection.continuation,
      (getCachedWebSocketInputDelta request.body k).isSome = true ∧ k.lastResponseId ≠ ""

/-- The response replaces the continuation of its connection. -/
def StoresContinuation (request : Request ι ρ β) (output : Output β) : Prop :=
  request.useCachedContext = true ∧ ∃ id ∈ output.responseId, id ≠ ""

/-- The request that responded ends well, and what it leaves on its connection
is the continuation of its response: it replaces the one there, with no blocks
or id of an attempt before, or there is none. -/
structure EndsWell (request : Request ι ρ β) (connection : Connection ι ρ)
    (responseId : Option String) (blocks : List β) (errorStatus : Bool) : Prop where
  status : errorStatus = false
  replaced : StoresContinuation request (request.output.after responseId blocks) →
    request.output.blocks = [] ∧ responseId.isSome = true
  absent : ¬ StoresContinuation request (request.output.after responseId blocks) →
    connection.continuation.isNone = true

/-- What the events of a run have to meet: a body without a delta names no
response itself; a response on a connection that is kept ends well; a request
is not aborted after it responded. -/
def Meets [DecidableEq ι] [DecidableEq ρ] (s : Sockets ι ρ β) :
    SocketEnv × SocketEvent ι ρ β → Prop
  | (_, .send r) => ∀ request ∈ s.requests[r]?, ∀ id ∈ request.connection?,
      ∀ connection ∈ s.connections[id]?,
        request.body.previousResponseId = none ∨ SendsDelta request connection
  | (env, .ends r (.completed responseId blocks errorStatus)) =>
    ∀ request ∈ s.requests[r]?, ∀ id ∈ request.connection?, ∀ connection ∈ s.connections[id]?,
      request.aborted = false → env.reusable = true → connection.key.isSome = true →
        EndsWell request connection responseId blocks errorStatus
  | (_, .abort r) => ∀ request ∈ s.requests[r]?, request.phase.isKept = false
  | _ => True

instance decidableSendsDelta [DecidableEq ι] [DecidableEq ρ] (request : Request ι ρ β)
    (connection : Connection ι ρ) : Decidable (SendsDelta request connection) :=
  inferInstanceAs (Decidable (_ ∧ _ ∧ ∃ k ∈ connection.continuation, _ ∧ _))

instance decidableStoresContinuation (request : Request ι ρ β) (output : Output β) :
    Decidable (StoresContinuation request output) :=
  inferInstanceAs (Decidable (_ ∧ ∃ id ∈ output.responseId, id ≠ ""))

instance decidableEndsWell (request : Request ι ρ β) (connection : Connection ι ρ)
    (responseId : Option String) (blocks : List β) (errorStatus : Bool) :
    Decidable (EndsWell request connection responseId blocks errorStatus) :=
  decidable_of_iff (errorStatus = false ∧
      (StoresContinuation request (request.output.after responseId blocks) →
        request.output.blocks.isEmpty = true ∧ responseId.isSome = true) ∧
      (¬ StoresContinuation request (request.output.after responseId blocks) →
        connection.continuation.isNone = true))
    ⟨fun h => ⟨h.1, fun hs => ⟨List.isEmpty_iff.mp (h.2.1 hs).1, (h.2.1 hs).2⟩, h.2.2⟩,
      fun h => ⟨h.status, fun hs =>
        ⟨List.isEmpty_iff.mpr (h.replaced hs).1, (h.replaced hs).2⟩, h.absent⟩⟩

instance decidableMeets [DecidableEq ι] [DecidableEq ρ] (s : Sockets ι ρ β) :
    ∀ label, Decidable (s.Meets label)
  | (_, .send r) => inferInstanceAs (Decidable (∀ request ∈ s.requests[r]?,
      ∀ id ∈ request.connection?, ∀ connection ∈ s.connections[id]?, _ ∨ _))
  | (env, .ends r (.completed responseId blocks errorStatus)) =>
    inferInstanceAs (Decidable (∀ request ∈ s.requests[r]?, ∀ id ∈ request.connection?,
      ∀ connection ∈ s.connections[id]?,
        request.aborted = false → env.reusable = true → connection.key.isSome = true →
          EndsWell request connection responseId blocks errorStatus))
  | (_, .ends _ (.threw _ _ _ _)) => .isTrue trivial
  | (_, .abort r) =>
    inferInstanceAs (Decidable (∀ request ∈ s.requests[r]?, request.phase.isKept = false))
  | (_, .begin _ _ _ _) => .isTrue trivial
  | (_, .connected _) => .isTrue trivial
  | (_, .connectFails _) => .isTrue trivial
  | (_, .settles _) => .isTrue trivial
  | (_, .idleTimerFires _) => .isTrue trivial
  | (_, .closeSessions _) => .isTrue trivial
  | (_, .resetStats _) => .isTrue trivial

variable {request : Request ι ρ β}

theorem connection?_acquired {id : Nat} (h : request.phase = .acquired id) :
    request.connection? = some id := by
  rw [Request.connection?, h]

theorem connection?_streaming {id : Nat} (h : request.phase = .streaming id) :
    request.connection? = some id := by
  rw [Request.connection?, h]

theorem Inv.begin (h : s.Inv) (sessionId : Option String) (accountId : String)
    (transport : Transport) (body : RequestBody ι ρ) (env : SocketEnv) :
    (s.begin sessionId accountId transport body env).Inv := by
  let request : Request ι ρ β := { sessionId, accountId, transport, body }
  have hadded : Inv { s with requests := s.requests ++ [request] } := by
    have hnew : ∀ (r : Nat) other, (s.requests ++ [request])[r]? = some other →
        s.requests[r]? = some other ∨ other = request := by
      intro r other hget
      rcases Nat.lt_or_ge r s.requests.length with hlt | hge
      · left
        rwa [getElem?_append_left hlt] at hget
      · right
        rw [getElem?_append_right hge] at hget
        exact List.mem_singleton.mp (mem_of_getElem? hget)
    have hholds : ∀ r id, Holds { s with requests := s.requests ++ [request] } r id →
        s.Holds r id := by
      rintro r id ⟨other, hget, hconn⟩
      rcases hnew r other hget with hold | rfl
      · exact ⟨other, hold, hconn⟩
      · cases hconn
    exact {
      held := fun r id hr => h.held r id (hholds r id hr)
      alone := fun r r' id hr hr' => h.alone r r' id (hholds r id hr) (hholds r' id hr')
      cached := h.cached
      continued := h.continued
      clean := fun r other hget => by
        rcases hnew r other hget with hold | rfl
        · exact h.clean r other hold
        nofun
      sent := h.sent }
  rw [Sockets.begin]
  split
  · exact hadded.startAttempt getElem?_concat_length env
  · exact hadded

theorem Inv.connected (h : s.Inv) (hreq : s.requests[r]? = some request)
    (shared : Bool) (env : SocketEnv) : (s.connected r request shared env).Inv := by
  have hlength : ∀ (id : Nat) c, s.connections[id]? = some c → id < s.connections.length :=
    fun id c hc => (List.getElem?_eq_some_iff.mp hc).1
  let key := if shared then request.key? else none
  let connection : Connection ι ρ := { key, createdAt := env.now }
  have hold : ∀ (id : Nat) c, s.connections[id]? = some c →
      (s.connections ++ [connection])[id]? = some c := by
    intro id c hc
    rwa [getElem?_append_left (hlength id c hc)]
  have hadded : Inv { s with
      connections := s.connections ++ [connection]
      cache := fun key' => if key = some key' then some s.connections.length else s.cache key' } :=
    { held := fun r id hholds => by
        obtain ⟨c, hc, hboth⟩ := h.held r id hholds
        exact ⟨c, hold id c hc, hboth⟩
      alone := h.alone
      cached := fun key' id hkeyed => by
        dsimp only at hkeyed
        split at hkeyed
        · obtain rfl := Option.some.inj hkeyed
          exact ⟨connection, getElem?_concat_length, ‹_›, rfl⟩
        · obtain ⟨c, hc, hboth⟩ := h.cached key' id hkeyed
          exact ⟨c, hold id c hc, hboth⟩
      continued := fun id c hget hdropped => by
        rcases Nat.lt_or_ge id s.connections.length with hlt | hge
        · rw [getElem?_append_left hlt] at hget
          exact h.continued id c hget hdropped
        · rw [getElem?_append_right hge] at hget
          rw [List.mem_singleton.mp (mem_of_getElem? hget)]
          nofun
      clean := h.clean
      sent := h.sent }
  refine hadded.hold (c := connection) hreq rfl (fun r' hholds => ?_)
    getElem?_concat_length rfl rfl (fun id status hphase => ?_)
  · obtain ⟨c, hc, -⟩ := h.held r' _ hholds
    exact absurd (hlength _ c hc) (Nat.lt_irrefl _)
  · cases hphase

section Send

variable [DecidableEq ι] [DecidableEq ρ]

theorem requestBody_continuation (request : Request ι ρ β) (c : Connection ι ρ) :
    (requestBody request c).2 = c.continuation ∨ (requestBody request c).2 = none := by
  rw [requestBody]
  split
  · rw [buildCachedWebSocketRequestBody.eq_def]
    split
    · right; rfl
    · split
      · right; rfl
      · split
        · right; rfl
        · left; exact Eq.symm ‹_›
  · left; rfl

/-- A body with a response id is the request's own, or continues the
connection's last response. -/
theorem requestBody_continues {id : String} (hcontinued : c.Continued)
    (hown : request.body.previousResponseId = none ∨ SendsDelta request c)
    (h : (requestBody request c).1.previousResponseId = some id) :
    ∃ last, c.last = some last ∧ SentRequest.Continues
      { id := 0, connection := c, full := request.body, body := (requestBody request c).1 }
      id last := by
  by_cases hdelta : SendsDelta request c
  · obtain ⟨hcontext, hkey, k, hk, hsome, hne⟩ := hdelta
    obtain ⟨delta, hget⟩ := Option.isSome_iff_exists.mp hsome
    have hbody : (requestBody request c).1 = { request.body with
        previousResponseId := some k.lastResponseId
        input := some delta } := by
      rw [requestBody, hcontext, hkey, hk]
      simp only [Bool.and_self, if_true, buildCachedWebSocketRequestBody, hget, if_neg hne]
    obtain ⟨hrest, hinput⟩ := getCachedWebSocketInputDelta_some hget
    rw [hbody] at h ⊢
    obtain rfl := Option.some.inj h
    exact ⟨_, hcontinued k hk, rfl, hinput, hrest.symm, rfl⟩
  · have hnone := hown.resolve_right hdelta
    have hbody : (requestBody request c).1 = request.body := by
      rw [requestBody]
      split
      · rename_i hboth
        rw [Bool.and_eq_true] at hboth
        rw [buildCachedWebSocketRequestBody.eq_def]
        split
        · rfl
        · rename_i k hk
          split
          · rfl
          · rename_i delta hget
            split
            · rfl
            · rename_i hne
              exact absurd ⟨hboth.1, hboth.2, k, hk, by rw [hget]; rfl, hne⟩ hdelta
      · rfl
    rw [hbody, hnone] at h
    cases h

theorem Inv.send (h : s.Inv) {r id : Nat}
    (hreq : s.requests[r]? = some request) (hphase : request.phase = .acquired id)
    (hc : s.connections[id]? = some c)
    (hown : request.body.previousResponseId = none ∨ SendsDelta request c) :
    (s.send r request id c).Inv := by
  have hconn := connection?_acquired hphase
  obtain ⟨hbusy, hdropped⟩ := h.of_holds hc ⟨request, hreq, hconn⟩
  have hcontinued := h.continued id c hc hdropped
  have hset : (s.setConnection id { c with continuation := (requestBody request c).2 }).Inv := by
    refine h.setConnection hc rfl (fun _ _ => ⟨hbusy, hdropped⟩) (fun _ _ => hdropped)
      (fun _ k hk => ?_)
    rcases requestBody_continuation request c with heq | heq
    · exact hcontinued k (heq.symm.trans hk)
    · have hk : (requestBody request c).2 = some k := hk
      rw [heq] at hk
      cases hk
  let request' : Request ι ρ β := { request with phase := .streaming id }
  have hkept : ∀ id', request'.connection? = some id' → request.connection? = some id' := by
    intro id' hid
    obtain rfl := Option.some.inj hid
    exact hconn
  have hstream := hset.setRequest hreq hkept (fun id' status hreturned => by cases hreturned)
  refine ⟨hstream.held, hstream.alone, hstream.cached, hstream.continued, hstream.clean, ?_⟩
  intro x hx
  rcases List.mem_append.mp hx with hold | hnew
  · exact h.sent x hold
  · rw [List.mem_singleton.mp hnew]
    refine ⟨hdropped, fun pid hpid => ?_⟩
    obtain ⟨last, hlast, hcont⟩ := requestBody_continues hcontinued hown hpid
    exact ⟨last, hlast, hcont.response, hcont.input, hcont.lastRest, hcont.rest⟩

end Send

theorem EndsWell.continued {responseId : Option String} {blocks : List β}
    {errorStatus : Bool} (h : EndsWell request c responseId blocks errorStatus)
    (responseItems : List β → List ι) (hkey : c.key.isSome = true) :
    Connection.Continued { c with
      last := some { responseId, request := request.body, items := responseItems blocks }
      continuation := continuationAfter responseItems request c
        (request.output.after responseId blocks) } := by
  intro k hk
  by_cases hstores : StoresContinuation request (request.output.after responseId blocks)
  · obtain ⟨hblocks, hsome⟩ := h.replaced hstores
    obtain ⟨hcontext, id, hid, hne⟩ := hstores
    rw [continuationAfter, hid] at hk
    dsimp only at hk
    rw [if_pos ⟨hcontext, hkey, hne⟩] at hk
    obtain rfl := Option.some.inj hk
    obtain ⟨own, rfl⟩ := Option.isSome_iff_exists.mp hsome
    obtain rfl := Option.some.inj hid
    simp only [Output.after, hblocks, nil_append]
  · have hnone := h.absent hstores
    have hkept : continuationAfter responseItems request c
        (request.output.after responseId blocks) = c.continuation := by
      rw [continuationAfter]
      split
      · rfl
      · rename_i id hid
        exact if_neg fun hall => hstores ⟨hall.1, id, hid, hall.2.2⟩
    rw [hkept] at hk
    rw [hk] at hnone
    cases hnone

theorem Inv.ends (h : s.Inv) (responseItems : List β → List ι) {id : Nat}
    (hreq : s.requests[r]? = some request) (hphase : request.phase = .streaming id)
    (hc : s.connections[id]? = some c) (env : SocketEnv) (ending : StreamEnd β)
    (hwell : ∀ responseId blocks errorStatus,
      ending = .completed responseId blocks errorStatus → request.aborted = false →
        env.reusable = true → c.key.isSome = true →
          EndsWell request c responseId blocks errorStatus) :
    (s.ends responseItems r request id c env ending).Inv := by
  have hholds : s.Holds r id := ⟨request, hreq, connection?_streaming hphase⟩
  have hdropped := (h.of_holds hc hholds).2
  -- once the request is back in its loop nobody uses the connection
  have hleft : ∀ request' : Request ι ρ β, request'.connection? = none →
      ∀ r', ¬ (s.setRequest r request').Holds r' id := by
    intro request' hnone r' hr'
    rw [holds_setRequest hreq] at hr'
    split at hr'
    · rw [hnone] at hr'
      cases hr'
    · rename_i hne
      exact hne (h.alone r r' id hholds hr')
  cases ending with
  | completed responseId blocks errorStatus =>
    have hwell := hwell responseId blocks errorStatus rfl
    dsimp only [Sockets.ends]
    rw [setRequest_release]
    refine Inv.release (c := c) (h.setRequest hreq ?_ ?_) hc ?_ (hleft _ ?_) ?_ _ env ?_
    · nofun
    · intro id' status hreturned
      obtain ⟨hkept, hstatus⟩ := RequestPhase.returned.inj hreturned
      obtain ⟨hkeep, hreusable, hkey⟩ := release_kept hkept
      rw [Bool.not_eq_true'] at hkeep
      obtain rfl := StreamResult.responded.inj hstatus
      exact ⟨(hwell hkeep hreusable hkey).status, hkeep⟩
    · rfl
    · rfl
    · exact hdropped
    · intro hkeep hreusable hkey
      rw [Bool.not_eq_true'] at hkeep
      rw [hkeep]
      exact (hwell hkeep hreusable hkey).continued responseItems hkey
  | threw responseId blocks error started =>
    dsimp only [Sockets.ends]
    rw [setRequest_release]
    refine Inv.release (c := c) (h.setRequest hreq ?_ ?_) hc ?_ (hleft _ ?_) ?_ _ env ?_
    · nofun
    · intro id' status hreturned
      cases (RequestPhase.returned.inj hreturned).2
    · rfl
    · rfl
    · exact hdropped
    nofun

theorem Inv.settles (h : s.Inv) {kept : Option Nat} {result : StreamResult}
    (hreq : s.requests[r]? = some request)
    (hphase : request.phase = .returned kept result) (env : SocketEnv) :
    (s.settles r request kept env result).Inv := by
  have hover : ∀ ending, (s.setRequest r { request with phase := .over ending }).Inv :=
    fun ending => h.setRequest hreq (fun id hid => by cases hid) fun id status hp => by cases hp
  have hfailed : ∀ ending, ((s.recordFailure request.sessionId).setRequest r
      { request with phase := .over ending }).Inv := by
    intro ending
    rw [setRequest_recordFailure]
    exact (hover ending).recordFailure request.sessionId
  cases result with
  | responded errorStatus =>
    -- a request whose connection was kept has neither failed nor been aborted
    cases kept with
    | none =>
      rw [Sockets.settles]
      split
      · exact hover .failed
      · split
        · exact hfailed .failed
        · exact hover .done
    | some id =>
      obtain ⟨hstatus, haborted⟩ := h.clean r request hreq id errorStatus hphase
      have hnot : ¬ request.aborted = true := by rw [haborted]; exact Bool.false_ne_true
      have hnostatus : ¬ errorStatus = true := by rw [hstatus]; exact Bool.false_ne_true
      rw [Sockets.settles, if_neg hnot, if_neg hnostatus]
      exact hover .done
  | threw error started =>
    dsimp only [Sockets.settles]
    split
    · exact h.startAttempt hreq env
    · split
      · exact h.startAttempt hreq env
      · split
        · exact hover .failed
        · exact hfailed _

theorem Inv.idleTimerFires (h : s.Inv) {id : Nat} (hc : s.connections[id]? = some c) :
    (s.idleTimerFires id c).Inv := by
  have hidle : (s.setConnection id { c with idleTimer := false }).Inv :=
    h.setConnection hc rfl (fun _ => h.of_holds (c := c) hc)
      (fun key hkeyed => (h.of_cached hc hkeyed).2) (h.continued id c hc)
  dsimp only [Sockets.idleTimerFires]
  split
  · exact hidle
  · split
    · exact hidle
    · exact hidle.forget _ _

theorem Inv.closeSessions (h : s.Inv) (sessionId : Option String) :
    (s.closeSessions sessionId).Inv := by
  have hconnection : ∀ (id : Nat) c', (s.closeSessions sessionId).connections[id]? = some c' →
      ∃ c, s.connections[id]? = some c ∧
        (c' = c ∨ c' = { c with idleTimer := false }) := by
    intro id c' hget
    dsimp only [Sockets.closeSessions] at hget
    rw [getElem?_mapIdx] at hget
    obtain ⟨c, hc, rfl⟩ := Option.map_eq_some_iff.mp hget
    refine ⟨c, hc, ?_⟩
    split
    · exact .inl rfl
    · split
      · exact .inr rfl
      · exact .inl rfl
  have hback : ∀ (id : Nat) c, s.connections[id]? = some c →
      ∃ c', (s.closeSessions sessionId).connections[id]? = some c' ∧ c'.key = c.key ∧
        c'.busy = c.busy ∧ c'.dropped = c.dropped := by
    intro id c hc
    have hsome : ((s.closeSessions sessionId).connections[id]?).isSome = true := by
      dsimp only [Sockets.closeSessions]
      rw [getElem?_mapIdx, hc]
      rfl
    obtain ⟨c', hc'⟩ := Option.isSome_iff_exists.mp hsome
    obtain ⟨before, hbefore, heq⟩ := hconnection id c' hc'
    obtain rfl := Option.some.inj (hc.symm.trans hbefore)
    rcases heq with rfl | rfl
    · exact ⟨_, hc', rfl, rfl, rfl⟩
    · exact ⟨_, hc', rfl, rfl, rfl⟩
  exact {
    held := fun r id hholds => by
      obtain ⟨c, hc, hbusy, hdropped⟩ := h.held r id hholds
      obtain ⟨c', hc', -, hbusy', hdropped'⟩ := hback id c hc
      exact ⟨c', hc', hbusy'.trans hbusy, hdropped'.trans hdropped⟩
    alone := h.alone
    cached := fun key id hkeyed => by
      have hold : s.cache key = some id := by
        dsimp only [Sockets.closeSessions] at hkeyed
        split at hkeyed
        · cases hkeyed
        · exact hkeyed
      obtain ⟨c, hc, hkey, hdropped⟩ := h.cached key id hold
      obtain ⟨c', hc', hkey', -, hdropped'⟩ := hback id c hc
      exact ⟨c', hc', hkey'.trans hkey, hdropped'.trans hdropped⟩
    continued := fun id c' hget hdropped => by
      obtain ⟨c, hc, heq⟩ := hconnection id c' hget
      have hcontinued := h.continued id c hc
      rcases heq with rfl | rfl
      · exact hcontinued hdropped
      · exact hcontinued hdropped
    clean := h.clean
    sent := h.sent }

/-- **A step that meets the condition keeps the invariant.** -/
theorem Inv.step [DecidableEq ι] [DecidableEq ρ] (h : s.Inv) {responseItems : List β → List ι}
    {label : SocketEnv × SocketEvent ι ρ β} {s' : Sockets ι ρ β} (hmeets : s.Meets label)
    (hstep : s.step responseItems label = some s') : s'.Inv := by
  obtain ⟨env, event⟩ := label
  cases event with
  | begin sessionId accountId transport body =>
    obtain rfl := Option.some.inj hstep
    exact h.begin sessionId accountId transport body env
  | abort r =>
    simp only [Sockets.step] at hstep
    split at hstep
    · cases hstep
    · rename_i request hreq
      obtain rfl := Option.some.inj hstep
      refine h.setRequest hreq (fun id hid => hid) fun id status hphase => ?_
      have hkept := hmeets request hreq
      rw [hphase] at hkept
      cases hkept
  | connected r =>
    simp only [Sockets.step] at hstep
    split at hstep
    · cases hstep
    · split at hstep
      · obtain rfl := Option.some.inj hstep
        exact h.connected ‹_› _ env
      · cases hstep
  | connectFails r =>
    simp only [Sockets.step] at hstep
    split at hstep
    · cases hstep
    · split at hstep
      · obtain rfl := Option.some.inj hstep
        exact h.setRequest ‹_› (fun id hid => by cases hid) fun id status hp => by cases hp
      · cases hstep
  | send r =>
    simp only [Sockets.step] at hstep
    split at hstep
    · cases hstep
    · rename_i request hreq
      split at hstep
      · rename_i id hphase
        obtain ⟨c, hc, rfl⟩ := Option.map_eq_some_iff.mp hstep
        exact h.send hreq hphase hc (hmeets request hreq id (connection?_acquired hphase) c hc)
      · cases hstep
  | ends r ending =>
    simp only [Sockets.step] at hstep
    split at hstep
    · cases hstep
    · rename_i request hreq
      split at hstep
      · rename_i id hphase
        obtain ⟨c, hc, rfl⟩ := Option.map_eq_some_iff.mp hstep
        refine h.ends responseItems hreq hphase hc env ending ?_
        rintro responseId blocks errorStatus rfl
        exact hmeets request hreq id (connection?_streaming hphase) c hc
      · cases hstep
  | settles r =>
    simp only [Sockets.step] at hstep
    split at hstep
    · cases hstep
    · split at hstep
      · obtain rfl := Option.some.inj hstep
        exact h.settles ‹_› ‹_› env
      · cases hstep
  | idleTimerFires id =>
    simp only [Sockets.step] at hstep
    split at hstep
    · cases hstep
    · split at hstep
      · obtain rfl := Option.some.inj hstep
        exact h.idleTimerFires ‹_›
      · cases hstep
  | closeSessions sessionId =>
    obtain rfl := Option.some.inj hstep
    exact h.closeSessions sessionId
  | resetStats sessionId =>
    obtain rfl := Option.some.inj hstep
    exact ⟨h.held, h.alone, h.cached, h.continued, h.clean, h.sent⟩

/-- No connection is open and no request has begun. -/
def Unused (s : Sockets ι ρ β) : Prop := s = {}

/-- **In every run whose steps meet the condition, all requests sent are
proper and no connection serves two.** -/
theorem sockets_proper [DecidableEq ι] [DecidableEq ρ] (responseItems : List β → List ι)
    (h : Run Unused (Sockets.step responseItems) Meets s) : s.Proper := by
  refine Inv.proper (h.invariant (p := Inv) ?_ ?_)
  · rintro s rfl
    have hnone : ∀ r id, ¬ Holds (ι := ι) (ρ := ρ) (β := β) {} r id := by
      rintro r id ⟨request, hget, -⟩
      cases hget
    exact {
      held := fun r id hholds => absurd hholds (hnone r id)
      alone := fun r r' id hholds => absurd hholds (hnone r id)
      cached := fun key id hkeyed => by cases hkeyed
      continued := fun id c hget => by cases hget
      clean := fun r request hget => by cases hget
      sent := fun x hx => by cases hx }
  · intro s label s' hinv hmeets hstep
    exact hinv.step hmeets hstep

/-- A request of one session, whose stream completes with the response. -/
def sampleRequest (r : Nat) (transport : Transport) (input : List String)
    (responseId block : String) : List (SocketEnv × SocketEvent String String String) :=
  [({ now := 0 }, .begin (some "session") "account" transport { input, rest := "gpt-5" }),
   ({ now := 0 }, .send r), ({ now := 0 }, .ends r (.completed (some responseId) [block] false)),
   ({ now := 0 }, .settles r)]

/-- Two requests of a session, the second over `transport`, and the first
events of a third that extends the first one's conversation. -/
def sampleRun (transport : Transport) : List (SocketEnv × SocketEvent String String String) :=
  let opening := sampleRequest 0 .auto ["question"] "resp_1" "answer"
  opening.take 1 ++ ({ now := 0 }, .connected 0) :: opening.drop 1
    ++ sampleRequest 1 transport ["question", "answer", "more"] "resp_2" "details"
    ++ (sampleRequest 2 .auto ["question", "answer", "other"] "resp_3" "").take 2

theorem sockets_proper_sample : (Run.afterAll (Sockets.step id) {} (sampleRun .auto)).Proper :=
  sockets_proper id (Run.of_check (.init rfl) (by decide +kernel))

/-- A request over the plain transport leaves the continuation of the one
before it on the connection, and the next one continues that. -/
theorem sockets_improper :
    ∃ s : Sockets String String String, Run Unused (Sockets.step id) (fun _ _ => True) s ∧
        ∃ x ∈ s.sent, x.body.previousResponseId = some "resp_1" ∧
          x.connection.last.bind (·.responseId) = some "resp_2" := by
  refine ⟨Run.afterAll (Sockets.step id) {} (sampleRun .websocket),
    Run.of_check (.init rfl) (by decide +kernel), ?_⟩
  decide +kernel

end Sockets

end ReflectivePi.Codex
