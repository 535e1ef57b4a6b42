import EditChain.Sync.TrafficTheorems

/-!
# Honest traffic stays within the limits of the transport

Two sessions joined by channels. A link is one side's requests and notices on their way out and
the other side's replies on their way back; a call of either side keeps it. What is in flight is
then bounded, and neither connection meets a limit of its transport.
-/

namespace EditChain.Sync

open Core Fallible

variable {Op : Type} [Schema Op] [Blake3] {R S : Type}

/-! ## One side's requests and their replies -/

/-- The link of a session that pulls: what it has sent, and what is on its way to it. -/
structure PullLink (session : Session R) (outgoing incoming : List Message) : Prop where
  /-- There is one request or its reply. -/
  one : tally .request outgoing + tally .reply incoming ≤ 1
  /-- The notices are those of one batch and the check of its page. -/
  notices : tally .notice outgoing ≤ inventoryPage + 1
  /-- A request is sent after all notices. -/
  last : outgoing.Pairwise fun first second => first.kind = .request → second.kind ≠ .notice
  /-- A request is answered when all notices before it have arrived. -/
  answered : tally .reply incoming ≠ 0 → tally .notice outgoing = 0
  /-- A session that does not wait has asked for nothing. -/
  asked : session.failed = false → ¬ session.Waiting →
    tally .request outgoing + tally .reply incoming = 0
  paced : session.failed = false → session.Paced
  fits : ∀ message ∈ outgoing, message.Fits

omit [Schema Op] [Blake3] in
/-- The requests of a worked session are at most one. -/
lemma requests_le {requests : List Message} {P : Prop}
    (h : requests = [] ∨ ∃ request, requests = [request] ∧ request.kind = .request ∧ P) :
    tally .request requests ≤ 1 ∧ tally .notice requests = 0 := by
  rcases h with rfl | ⟨request, rfl, hkind, -⟩
  · exact ⟨Nat.zero_le _, rfl⟩
  · simp [hkind]

omit [Schema Op] [Blake3] in
/-- Notices come before the request. -/
lemma pairwise_work {notices requests : List Message} {P : Prop}
    (hnotices : ∀ message ∈ notices, message.kind = .notice)
    (h : requests = [] ∨ ∃ request, requests = [request] ∧ request.kind = .request ∧ P) :
    (notices ++ requests).Pairwise fun first second =>
      first.kind = .request → second.kind ≠ .notice := by
  have hfirst : ∀ first ∈ notices, first.kind ≠ .request := by
    intro first hmem
    rw [hnotices first hmem]
    decide
  rw [List.pairwise_append]
  refine ⟨?_, ?_, fun first hmem _ _ hkind => absurd hkind (hfirst first hmem)⟩
  · exact List.pairwise_of_forall_mem_list fun first hmem _ _ hkind =>
      absurd hkind (hfirst first hmem)
  · rcases h with rfl | ⟨request, rfl, -, -⟩
    · exact .nil
    · exact List.pairwise_singleton _ _

/-- A session at work sends no reply and no hello. -/
lemma Session.Worked.kind_eq {t : Session R} {replies : List Message} (h : t.Worked replies) :
    ∀ message ∈ replies, message.kind = .notice ∨ message.kind = .request := by
  obtain ⟨notices, requests, rfl, hnotices, -, hrequests⟩ := h.shape
  intro message hmessage
  rcases List.mem_append.mp hmessage with hnotice | hrequest
  · exact .inl (hnotices message hnotice)
  · rcases hrequests with rfl | ⟨request, rfl, hkind, -⟩
    · cases hrequest
    · rw [List.mem_singleton.mp hrequest]
      exact .inr hkind

lemma Session.Worked.kind_ne_reply {t : Session R} {replies : List Message} (h : t.Worked replies) :
    ∀ message ∈ replies, message.kind ≠ .reply := by
  intro message hmessage
  rcases h.kind_eq message hmessage with hkind | hkind <;> rw [hkind] <;> decide

/-- Only a request is answered, by one reply. -/
lemma Session.Conduct.of_reply {s t : Session R} {input : Option Message} {replies : List Message}
    (h : s.Conduct t input replies) (hreply : tally .reply replies ≠ 0) :
    ∃ request reply, input = some request ∧ replies = [reply] ∧ request.kind = .request ∧
      reply.kind = .reply := by
  cases h with
  | fail => exact absurd rfl hreply
  | quiet => exact absurd rfl hreply
  | answer request reply hrequest hkind =>
    exact ⟨request, reply, rfl, rfl, hrequest, hkind⟩
  | start => exact absurd rfl hreply
  | work reply replies _ _ worked => exact absurd (tally_eq_zero.mpr worked.kind_ne_reply) hreply

namespace PullLink

variable {session : Session R} {outgoing incoming : List Message}

lemma of_new (replica : R) : PullLink (Session.new replica) [] [] where
  one := Nat.zero_le _
  notices := Nat.zero_le _
  last := .nil
  answered h := absurd rfl h
  asked _ _ := rfl
  paced _ := Session.paced_new replica
  fits message h := by cases h

/-- Fewer messages on their way to a session. -/
lemma received {input : Option Message} (h : PullLink session outgoing (input.toList ++ incoming)) :
    PullLink session outgoing incoming := by
  have hone := h.one
  have hanswered := h.answered
  have hasked := h.asked
  simp only [tally_append] at hone hanswered hasked
  refine ⟨by omega, h.notices, h.last, ?_, ?_, h.paced, h.fits⟩
  · intro hreply
    exact hanswered (by omega)
  · intro hopened hwaiting
    have hzero := hasked hopened hwaiting
    omega

/-- A message that is neither a request nor a notice is sent. -/
lemma sent (h : PullLink session outgoing incoming) {message : Message}
    (hrequest : message.kind ≠ .request) (hnotice : message.kind ≠ .notice)
    (hfits : message.Fits) : PullLink session (outgoing ++ [message]) incoming where
  one := by
    simp only [tally_append, tally_cons, tally_nil, if_neg hrequest]
    exact h.one
  notices := by
    simp only [tally_append, tally_cons, tally_nil, if_neg hnotice]
    exact h.notices
  last := by
    rw [List.pairwise_append]
    refine ⟨h.last, List.pairwise_singleton _ _, ?_⟩
    intro first _ second hsecond _
    rw [List.mem_singleton.mp hsecond]
    exact hnotice
  answered := by
    simp only [tally_append, tally_cons, tally_nil, if_neg hnotice]
    exact h.answered
  asked := by
    simp only [tally_append, tally_cons, tally_nil, if_neg hrequest]
    exact h.asked
  paced := h.paced
  fits m hm := by
    rcases List.mem_append.mp hm with hold | hnew
    · exact h.fits m hold
    · rw [List.mem_singleton.mp hnew]
      exact hfits

/-- The session changes where its link does not see it. -/
lemma congr {t : Session R} (h : PullLink session outgoing incoming)
    (same : Session.SamePull session t) (failed : t.failed = session.failed) :
    PullLink t outgoing incoming where
  one := h.one
  notices := h.notices
  last := h.last
  answered := h.answered
  asked hopened hwaiting :=
    h.asked (failed.symm.trans hopened) fun hold => hwaiting (same.waiting.mpr hold)
  paced hopened := same.paced (h.paced (failed.symm.trans hopened))
  fits := h.fits

/-- A call of the pulling session keeps its link. -/
lemma conduct {t : Session R} {input : Option Message} {replies : List Message}
    (h : PullLink session outgoing (input.toList ++ incoming))
    (hc : session.Conduct t input replies) : PullLink t (outgoing ++ replies) incoming := by
  cases hc with
  | fail input failed =>
    have hrest := h.received
    rw [List.append_nil]
    have hnot : t.failed ≠ false := by
      rw [failed]
      decide
    exact ⟨hrest.one, hrest.notices, hrest.last, hrest.answered, fun hopened => absurd hopened hnot,
      fun hopened => absurd hopened hnot, hrest.fits⟩
  | quiet input same failed =>
    rw [List.append_nil]
    exact h.received.congr same failed
  | answer request reply hrequest hreply fits same failed =>
    apply (h.received.congr same failed).sent
    · rw [hreply]
      decide
    · rw [hreply]
      decide
    · exact fits
  | start input opened idle waiting paced =>
    have hrest := h.received
    have hnone := hrest.asked opened ((h.paced opened).idle idle)
    refine ⟨?_, ?_, ?_, ?_, fun _ hnot => absurd waiting hnot, fun _ => paced, ?_⟩
    · simp only [tally_append, tally_cons, tally_nil, Message.kind]
      simp
      omega
    · simp only [tally_append, tally_cons, tally_nil, Message.kind]
      simpa using h.notices
    · rw [List.pairwise_append]
      refine ⟨h.last, List.pairwise_singleton _ _, ?_⟩
      intro first _ second hsecond _
      rw [List.mem_singleton.mp hsecond]
      decide
    · intro hreply
      omega
    · intro m hm
      rcases List.mem_append.mp hm with hold | hnew
      · exact h.fits m hold
      · rw [List.mem_singleton.mp hnew]
        trivial
  | work reply replies hreply opened worked =>
    -- the reply was the only thing on the link
    have hone := h.one
    have hclear : tally .notice outgoing = 0 := by
      apply h.answered
      simp [hreply]
    simp only [Option.toList_some, List.singleton_append, tally_cons, hreply, if_true] at hone
    have hnone : tally .request outgoing = 0 := by omega
    have hback : tally .reply incoming = 0 := by omega
    obtain ⟨notices, requests, rfl, hnotices, hlength, hrequests⟩ := worked.shape
    have hfew := requests_le hrequests
    have hrequest : tally .request notices = 0 := tally_of_forall hnotices (by decide)
    have hcount : tally .notice notices ≤ notices.length := tally_le_length
    refine ⟨?_, ?_, ?_, fun hreply => absurd hback hreply, ?_, fun _ => worked.paced, ?_⟩
    · simp only [tally_append]
      omega
    · simp only [tally_append]
      omega
    · rw [List.pairwise_append]
      refine ⟨h.last, pairwise_work hnotices hrequests, ?_⟩
      intro first hfirst second _ hkind
      exact absurd hkind (tally_eq_zero.mp hnone first hfirst)
    · intro _ hnot
      rcases hrequests with rfl | ⟨request, rfl, hkind, hwaiting⟩
      · simp only [tally_append, tally_nil]
        omega
      · exact absurd hwaiting hnot
    · intro m hm
      rcases List.mem_append.mp hm with hold | hnew
      · exact h.fits m hold
      · apply Message.fits_of_kind
        exact worked.kind_ne_reply m hnew

/-- A call of the answering session keeps the link of the other. -/
lemma served {s t : Session S} {input : Option Message} {replies : List Message}
    (h : PullLink session (input.toList ++ outgoing) incoming) (hc : s.Conduct t input replies) :
    PullLink session outgoing (incoming ++ replies) := by
  have hone := h.one
  have hnotices := h.notices
  simp only [tally_append] at hone hnotices
  have hlast := (List.pairwise_append.mp h.last).2.1
  have hfits : ∀ message ∈ outgoing, message.Fits := fun message hmessage =>
    h.fits message (List.mem_append_right _ hmessage)
  by_cases hreply : tally .reply replies = 0
  · -- nothing is answered
    have hanswered := h.answered
    have hasked := h.asked
    simp only [tally_append] at hanswered hasked
    refine ⟨?_, by omega, hlast, ?_, ?_, h.paced, hfits⟩
    · rw [tally_append]
      omega
    · rw [tally_append]
      intro hsome
      have hnone := hanswered (by omega)
      omega
    · rw [tally_append]
      intro hopened hwaiting
      have hnone := hasked hopened hwaiting
      omega
  · -- the request that was first in the channel is answered
    obtain ⟨request, reply, rfl, rfl, hrequest, hkind⟩ := hc.of_reply hreply
    simp only [Option.toList_some, tally_cons, tally_nil, hrequest, if_true] at hone
    have hclear : tally .notice outgoing = 0 := by
      rw [tally_eq_zero]
      intro message hmessage
      exact (List.pairwise_cons.mp h.last).1 message hmessage hrequest
    refine ⟨?_, by omega, hlast, fun _ => hclear, ?_, h.paced, hfits⟩
    · simp only [tally_append, tally_cons, tally_nil, hkind, if_true]
      omega
    · intro hopened hwaiting
      have hnone := h.asked hopened hwaiting
      simp only [Option.toList_some, tally_append, tally_cons, hrequest, if_true] at hnone
      omega

end PullLink

/-! ## Both sides -/

/-- The invariant of two joined endpoints. -/
structure Traffic (network : Network R S) : Prop where
  left : PullLink network.left.session network.left.outbox network.right.outbox
  right : PullLink network.right.session network.right.outbox network.left.outbox
  leftHello : tally .hello network.left.outbox ≤ if network.left.greeted then 1 else 0
  rightHello : tally .hello network.right.outbox ≤ if network.right.greeted then 1 else 0

lemma Session.Conduct.tally_hello {s t : Session R} {input : Option Message}
    {replies : List Message} (h : s.Conduct t input replies) : tally .hello replies = 0 := by
  cases h with
  | fail => rfl
  | quiet => rfl
  | answer request reply hrequest hkind => simp [hkind]
  | start => rfl
  | work reply replies _ _ worked =>
    rw [tally_eq_zero]
    intro message hmessage
    rcases worked.kind_eq message hmessage with hkind | hkind <;> rw [hkind] <;> decide

/-- The conduct of a call, whatever its outcome. -/
lemma Session.conduct_of_wp {s : Session R} {input : Option Message}
    {m : Fallible IoError (Session R) (List Message)}
    (h : wp m (fun r t => s.Conduct t input r) (fun _ t => t.failed = true) s) :
    s.Conduct (m.exec s).2 input (repliesOf (m.exec s).1) := by
  cases hm : m.exec s with
  | mk result t =>
    cases result with
    | ok replies =>
      have hconduct := wp_eq_ok h hm
      exact hconduct
    | error e =>
      have hfailed := wp_eq_error h hm
      exact .fail input hfailed

namespace Traffic

variable {network : Network R S}

lemma of_new (left : R) (right : S) : Traffic (Network.new left right) where
  left := .of_new left
  right := .of_new right
  leftHello := Nat.zero_le _
  rightHello := Nat.zero_le _

lemma swap (h : Traffic network) : Traffic network.swap where
  left := h.right
  right := h.left
  leftHello := h.rightHello
  rightHello := h.leftHello

/-- A call of the left endpoint, which takes in the next message or none. -/
lemma call (h : Traffic network) {input : Option Message} {rest : List Message}
    (hinput : network.right.outbox = input.toList ++ rest)
    {m : Fallible IoError (Session R) (List Message)}
    (hm : wp m (fun r t => network.left.session.Conduct t input r) (fun _ t => t.failed = true)
      network.left.session) :
    Traffic { left := network.left.call m, right := { network.right with outbox := rest } } := by
  have hconduct := Session.conduct_of_wp hm
  have hleft := h.left
  have hright := h.right
  have hhello := h.rightHello
  rw [hinput] at hleft hright hhello
  refine ⟨hleft.conduct hconduct, hright.served hconduct, ?_, ?_⟩
  · show tally .hello (network.left.outbox ++ _) ≤ _
    rw [tally_append, hconduct.tally_hello]
    exact h.leftHello
  · rw [tally_append] at hhello
    show tally .hello rest ≤ if network.right.greeted then 1 else 0
    omega

variable [ReplicationStorage R]

/-- The hello is sent once. -/
lemma greet (h : Traffic network) : Traffic { network with left := network.left.greet } := by
  unfold Endpoint.greet
  by_cases hgreeted : network.left.greeted = true
  · rw [if_pos hgreeted]
    exact h
  · rw [if_neg hgreeted]
    have hhello := h.leftHello
    rw [if_neg hgreeted] at hhello
    refine ⟨?_, ?_, ?_, h.rightHello⟩
    · apply h.left.sent
      · exact fun hkind => by cases hkind
      · exact fun hkind => by cases hkind
      · trivial
    · -- the hello is no reply
      have hcount : tally .reply (network.left.outbox ++ [network.left.session.hello])
          = tally .reply network.left.outbox := by simp [Session.hello, Message.kind]
      have hlink := h.right
      exact ⟨hcount ▸ hlink.one, hlink.notices, hlink.last, hcount ▸ hlink.answered,
        hcount ▸ hlink.asked, hlink.paced, hlink.fits⟩
    · show tally .hello (network.left.outbox ++ _) ≤ 1
      rw [tally_append, tally_cons]
      simp only [tally_nil]
      split <;> omega

/-- Whatever the left endpoint does keeps the invariant. -/
lemma act (h : Traffic network) (action : Action R) : Traffic (network.act action) := by
  cases action with
  | greet => exact h.greet
  | deliver =>
    unfold Network.act
    dsimp only
    split
    · rename_i message rest _ hrest
      exact h.call (show _ = (some message).toList ++ rest from hrest)
        (Session.wp_receive h.left.paced message)
    · exact h
  | tick =>
    unfold Network.act
    dsimp only
    split
    · apply h.call (show _ = (none : Option Message).toList ++ _ from rfl)
      apply wp_weaken (Session.wp_tick none)
      intro r t ht
      exact ht.1
    · exact h
  | change f => exact ⟨h.left.congr ⟨rfl, rfl⟩ rfl, h.right, h.leftHello, h.rightHello⟩

variable [ReplicationStorage S]

lemma step (h : Traffic network) (event : Network.Event R S) : Traffic (network.step event) := by
  cases event with
  | left action => exact h.act action
  | right action => exact (h.swap.act action).swap

lemma run (h : Traffic network) (events : List (Network.Event R S)) :
    Traffic (network.run events) := by
  induction events generalizing network with
  | nil => exact h
  | cons event events ih => exact ih (h.step event)

end Traffic

/-! ## Connections -/

lemma Session.Conduct.fits {s t : Session R} {input : Option Message} {replies : List Message}
    (h : s.Conduct t input replies) : ∀ message ∈ replies, message.Fits ∧ message.Named := by
  have hkind : ∀ message ∈ replies, message.kind ≠ .hello := tally_eq_zero.mp h.tally_hello
  have hnamed : ∀ message ∈ replies, message.Named := by
    intro message hmessage
    cases message with
    | hello => exact absurd rfl (hkind _ hmessage)
    | inventory | page | need | chunk | missing | ack | checked => trivial
  refine fun message hmessage => ⟨?_, hnamed message hmessage⟩
  cases h with
  | fail => cases hmessage
  | quiet => cases hmessage
  | answer request reply _ _ fits =>
    rw [List.mem_singleton.mp hmessage]
    exact fits
  | start =>
    rw [List.mem_singleton.mp hmessage]
    trivial
  | work reply replies _ _ worked =>
    exact Message.fits_of_kind (worked.kind_ne_reply message hmessage)

/-- A session keeps its pace. -/
lemma Session.Conduct.paced {s t : Session R} {input : Option Message} {replies : List Message}
    (h : s.Conduct t input replies) (hs : s.failed = false → s.Paced) :
    t.failed = false → t.Paced := by
  intro hopened
  cases h with
  | fail input failed => exact absurd (hopened.symm.trans failed) Bool.false_ne_true
  | quiet input same failed => exact same.paced (hs (failed.symm.trans hopened))
  | answer _ _ _ _ _ same failed => exact same.paced (hs (failed.symm.trans hopened))
  | start _ _ _ _ paced => exact paced
  | work _ _ _ _ worked => exact worked.paced

namespace Connection

variable [ReplicationStorage R] {T : Type} [Transport T] {c : Connection R T}

/-- A connection that differs in its transport only. -/
structure Carried (c d : Connection R T) : Prop where
  session : d.session = c.session
  messages : d.messages = c.messages
  started : d.started = c.started

omit [ReplicationStorage R] in
/-- Sending a message within its limits fails only if the transport does. -/
lemma wp_sendMessage {message : Message} (hfits : message.Fits) (hnamed : message.Named) :
    wp (sendMessage message) (fun _ d => Carried c d) (fun failure _ => ¬ failure.IsLimit) c := by
  unfold sendMessage
  rw [wp_bind, wp_lift, encodeMessage_of_fits hfits hnamed]
  refine ⟨fun frame _ => ?_, fun e he => by cases he⟩
  unfold onTransport
  apply wp_of_exec
  · intro _ d hrun
    obtain ⟨-, rfl⟩ := Prod.mk.inj hrun
    exact ⟨rfl, rfl, rfl⟩
  · intro failure d hrun
    have hfailure := (Prod.mk.inj hrun).1
    cases hresult : ((Transport.send frame).exec c.transport).1 with
    | ok =>
      rw [hresult] at hfailure
      cases hfailure
    | error e =>
      rw [hresult] at hfailure
      cases hfailure
      exact id

omit [ReplicationStorage R] in
lemma wp_send {messages : List Message} (h : ∀ message ∈ messages, message.Fits ∧ message.Named) :
    wp (send messages) (fun _ d => Carried c d) (fun failure _ => ¬ failure.IsLimit) c := by
  unfold send
  refine wp_forM messages (fun _ d => Carried c d) ?_ ⟨rfl, rfl, rfl⟩
  intro done message d hdone hd
  have hmem : message ∈ messages := hdone.subset (by simp)
  apply wp_weaken (wp_sendMessage (h message hmem).1 (h message hmem).2)
  intro _ e he
  exact ⟨he.session.trans hd.session, he.messages.trans hd.messages,
    he.started.trans hd.started⟩

omit [ReplicationStorage R] in
/-- A call of the session, and sending what it replies. -/
lemma wp_reply {input : Option Message} {m : Fallible IoError (Session R) (List Message)}
    (hpaced : c.session.failed = false → c.session.Paced)
    (hm : wp m (fun r t => c.session.Conduct t input r) (fun _ t => t.failed = true) c.session) :
    wp (do let replies ← onSession m; send replies)
      (fun _ (d : Connection R T) => (d.session.failed = false → d.session.Paced) ∧
        d.messages = c.messages ∧ d.started = c.started)
      (fun failure _ => ¬ failure.IsLimit) c := by
  rw [wp_bind]
  unfold onSession
  apply wp_of_exec
  · intro replies d hrun
    obtain ⟨hresult, rfl⟩ := Prod.mk.inj hrun
    have hconduct := Session.conduct_of_wp hm
    cases hmessages : (m.exec c.session).1 with
    | ok messages =>
      rw [hmessages] at hresult hconduct
      cases hresult
      apply wp_weaken (wp_send hconduct.fits)
      intro _ d hd
      rw [hd.session, hd.messages, hd.started]
      exact ⟨hconduct.paced hpaced, rfl, rfl⟩
    | error e =>
      rw [hmessages] at hresult
      cases hresult
  · intro failure d hrun
    have hfailure := (Prod.mk.inj hrun).1
    cases hresult : (m.exec c.session).1 with
    | ok =>
      rw [hresult] at hfailure
      cases hfailure
    | error e =>
      rw [hresult] at hfailure
      cases hfailure
      exact id

omit [ReplicationStorage R] [Transport T] in
/-- Remembering a failure does not change it. -/
lemma wp_remembered {m : Fallible Failure (Connection R T) Unit}
    (h : wp m (fun _ _ => True) (fun failure _ => ¬ failure.IsLimit) c) :
    wp (remembered m) (fun _ _ => True) (fun failure _ => ¬ failure.IsLimit) c := by
  unfold remembered
  apply wp_of_exec
  · intro _ _ _
    trivial
  · intro failure d hrun
    obtain ⟨hfailure, -⟩ := Prod.mk.inj hrun
    exact wp_eq_error h (Prod.ext hfailure rfl)

omit [ReplicationStorage R] [Transport T] in
/-- A closed connection is no limit of the transport. -/
lemma wp_connected (text : String) :
    wp (Connection.ensureOpen text) (fun _ d => d = c) (fun failure _ => ¬ failure.IsLimit) c := by
  unfold Connection.ensureOpen
  rw [wp_bind, wp_get, wp_ite]
  exact ⟨fun _ => id, fun _ => rfl⟩

end Connection

section Calls

open Connection

variable [ReplicationStorage R] {T : Type} [Transport T] {c : Connection R T}

/-- The messages of a turn are counted, and their replies are sent. -/
lemma SecurePeer.wp_plaintext (hpaced : c.session.failed = false → c.session.Paced)
    (hcount : c.messages = 0) {messages : List Message} (hfew : messages.length ≤ maxTurnMessages) :
    wp (SecurePeer.plaintext messages)
      (fun _ d => d.session.failed = false → d.session.Paced)
      (fun failure _ => ¬ failure.IsLimit) c := by
  unfold SecurePeer.plaintext
  -- the counter is at most the number of messages done
  let inv (done : List Message) (d : Connection R T) : Prop :=
    (d.session.failed = false → d.session.Paced) ∧ d.messages ≤ done.length
  apply wp_weaken (wp_forM messages inv _ ⟨hpaced, by rw [hcount]; exact Nat.zero_le _⟩)
  · intro _ d hd
    exact hd.1
  · intro done message d hdone hd
    have hdone' : done.length + 1 ≤ messages.length := by
      have hle := hdone.length_le
      rwa [List.length_append, List.length_singleton] at hle
    have hcounted : saturatingAdd d.messages 1 ≤ done.length + 1 := by
      have hle := hd.2
      unfold saturatingAdd
      omega
    rw [wp_bind, wp_get, wp_guard]
    refine ⟨fun _ => id, fun _ => ?_⟩
    rw [wp_bind, wp_modify, wp_bind, wp_get, wp_guard]
    constructor
    · intro hmany
      have hlimit : maxTurnMessages < saturatingAdd d.messages 1 := hmany
      omega
    · intro _
      apply wp_weaken (wp_reply (c := { d with messages := saturatingAdd d.messages 1 }) hd.1
        (Session.wp_receive hd.1 message))
      intro _ e he
      refine ⟨he.1, ?_⟩
      rw [he.2.1, List.length_append, List.length_singleton]
      exact hcounted

/-- A tick of a connection. -/
lemma wp_replyTick (hpaced : c.session.failed = false → c.session.Paced) :
    wp (do let replies ← onSession Session.tick; send replies) (fun _ (_ : Connection R T) => True)
      (fun failure _ => ¬ failure.IsLimit) c := by
  have htick := Session.wp_tick (s := c.session) none
  have hconduct := wp_mono htick (fun _ _ ht => ht.1) fun _ _ hfailed => hfailed
  apply wp_weaken (wp_reply hpaced hconduct)
  intro _ _ _
  trivial

/-- A turn of a secure peer. -/
lemma SecurePeer.wp_turn (hpaced : c.session.failed = false → c.session.Paced)
    (hnamed : c.session.hello.Named) (handshaken : Bool) {messages : List Message} (tick : Bool)
    (hfew : messages.length ≤ maxTurnMessages) :
    wp (SecurePeer.turn handshaken messages tick) (fun _ _ => True)
      (fun failure _ => ¬ failure.IsLimit) c := by
  unfold SecurePeer.turn
  rw [wp_bind]
  apply wp_mono (wp_connected _) _ (fun _ _ hfailure => hfailure)
  intro _ d hd
  subst hd
  apply wp_remembered
  unfold SecurePeer.processTurn
  rw [wp_bind, wp_modify, wp_bind]
  -- the hello, when the peer has just been authenticated
  have hstart : wp (SecurePeer.authenticate handshaken)
      (fun _ e => e.session = d.session ∧ e.messages = 0) (fun failure _ => ¬ failure.IsLimit)
      { d with messages := 0 } := by
    unfold SecurePeer.authenticate
    rw [wp_bind, wp_get, wp_ite]
    refine ⟨fun _ => ?_, fun _ => ⟨rfl, rfl⟩⟩
    rw [wp_bind, wp_modify, wp_bind, wp_get]
    have hfits : d.session.hello.Fits := trivial
    apply wp_weaken (wp_sendMessage hfits hnamed)
    intro _ e he
    exact ⟨he.session, he.messages⟩
  apply wp_mono hstart _ (fun _ _ hfailure => hfailure)
  intro _ e he
  have hpaced' : e.session.failed = false → e.session.Paced := by
    rw [he.1]
    exact hpaced
  rw [wp_bind]
  apply wp_mono (SecurePeer.wp_plaintext hpaced' he.2 hfew) _ (fun _ _ hfailure => hfailure)
  intro _ g hg
  rw [wp_bind, wp_get, wp_ite]
  exact ⟨fun _ => wp_replyTick hg, fun _ => trivial⟩

omit [ReplicationStorage R] [Transport T] in
/-- A started connection is the same connection. -/
lemma PeerConnection.wp_ensureStarted :
    wp PeerConnection.ensureStarted (fun _ d => d = c) (fun failure _ => ¬ failure.IsLimit) c := by
  unfold PeerConnection.ensureStarted
  rw [wp_bind]
  apply wp_mono (wp_connected _) _ (fun _ _ hfailure => hfailure)
  intro _ d hd
  rw [wp_bind, wp_get, wp_ite]
  exact ⟨fun _ => id, fun _ => hd⟩

lemma PeerConnection.wp_start (hnamed : c.session.hello.Named) :
    wp PeerConnection.start (fun _ _ => True) (fun failure _ => ¬ failure.IsLimit) c := by
  unfold PeerConnection.start
  rw [wp_bind]
  apply wp_mono (wp_connected _) _ (fun _ _ hfailure => hfailure)
  intro _ d hd
  subst hd
  rw [wp_bind, wp_get, wp_guard]
  refine ⟨fun _ => id, fun _ => ?_⟩
  rw [wp_bind, wp_modify]
  apply wp_remembered
  rw [wp_bind, wp_get]
  apply wp_mono (wp_send _) (fun _ _ _ => trivial) (fun _ _ hfailure => hfailure)
  intro message hmessage
  rw [List.mem_singleton.mp hmessage]
  exact ⟨trivial, hnamed⟩

lemma PeerConnection.wp_receive (hpaced : c.session.failed = false → c.session.Paced)
    (messages : List Message) :
    wp (PeerConnection.receive messages) (fun _ _ => True) (fun failure _ => ¬ failure.IsLimit)
      c := by
  unfold PeerConnection.receive
  rw [wp_bind]
  apply wp_mono PeerConnection.wp_ensureStarted _ (fun _ _ hfailure => hfailure)
  intro _ d hd
  subst hd
  apply wp_remembered
  let inv (_ : List Message) (e : Connection R T) : Prop :=
    e.session.failed = false → e.session.Paced
  apply wp_mono (wp_forM messages inv _ hpaced) (fun _ _ _ => trivial)
    (fun _ _ hfailure => hfailure)
  intro done message e _ he
  apply wp_mono (wp_reply he (Session.wp_receive he message)) _ (fun _ _ hfailure => hfailure)
  intro _ g hg
  exact hg.1

lemma PeerConnection.wp_tick (hpaced : c.session.failed = false → c.session.Paced) :
    wp PeerConnection.tick (fun _ _ => True) (fun failure _ => ¬ failure.IsLimit) c := by
  unfold PeerConnection.tick
  rw [wp_bind]
  apply wp_mono PeerConnection.wp_ensureStarted _ (fun _ _ hfailure => hfailure)
  intro _ d hd
  subst hd
  exact wp_remembered (wp_replyTick hpaced)

end Calls

/-! ## The limits -/

/-- The messages in flight from one endpoint, beside those in flight to it. -/
structure WithinLimits (outgoing incoming : List Message) : Prop where
  inFlight : outgoing.length ≤ inventoryPage + 4
  replies : tally .reply outgoing ≤ 1
  /-- A request is in flight, or its reply is on the way back, or neither. -/
  unanswered : tally .request outgoing + tally .reply incoming ≤ 1
  encodes : ∀ message ∈ outgoing, message.Named → ∃ frame, encodeMessage message = .ok frame ∧
    frame.length ≤ maxFrameBytes + 4

/-- No call of a connection over the session fails at a limit of its transport, when the messages
of one turn are some of those in flight. -/
structure Unhindered [ReplicationStorage R] (session : Session R) (incoming : List Message) :
    Prop where
  turn : ∀ (T : Type) [Transport T] (c : Connection R T), c.session = session →
    session.hello.Named → ∀ handshaken messages tick, messages <+: incoming → ∀ failure d,
      (SecurePeer.turn handshaken messages tick).exec c = (.error failure, d) →
        ¬ failure.IsLimit
  start : ∀ (T : Type) [Transport T] (c : Connection R T), c.session = session →
    session.hello.Named → ∀ failure d,
      PeerConnection.start.exec c = (.error failure, d) → ¬ failure.IsLimit
  receive : ∀ (T : Type) [Transport T] (c : Connection R T), c.session = session →
    ∀ messages, messages <+: incoming → ∀ failure d,
      (PeerConnection.receive messages).exec c = (.error failure, d) → ¬ failure.IsLimit
  tick : ∀ (T : Type) [Transport T] (c : Connection R T), c.session = session →
    ∀ failure d, PeerConnection.tick.exec c = (.error failure, d) → ¬ failure.IsLimit

/-- The link of either side and the hello bound what is in flight. -/
lemma Traffic.withinLimits {network : Network R S} (h : Traffic network) :
    WithinLimits network.left.outbox network.right.outbox where
  inFlight := by
    have hone := h.left.one
    have hback := h.right.one
    have hnotices := h.left.notices
    have hhello : tally .hello network.left.outbox ≤ 1 := by
      have hgreeted := h.leftHello
      split at hgreeted <;> omega
    rw [length_eq_tallies]
    omega
  replies := by
    have hback := h.right.one
    omega
  unanswered := h.left.one
  encodes message hmessage hnamed := by
    have hfits := h.left.fits message hmessage
    have hlength := Message.length_payload_le hfits hnamed
    refine ⟨_, encodeMessage_of_fits hfits hnamed, ?_⟩
    rw [List.length_append, ByteString.length_leBytes]
    unfold maxFrameBytes
    omega

/-- A paced session with few messages on their way to it meets no limit. -/
lemma Session.Paced.unhindered [ReplicationStorage R] {session : Session R}
    {incoming : List Message} (hpaced : session.failed = false → session.Paced)
    (hfew : incoming.length ≤ maxTurnMessages) : Unhindered session incoming where
  turn T _ c hc hnamed handshaken messages tick hpart failure d hrun := by
    subst hc
    have hturn := SecurePeer.wp_turn hpaced hnamed handshaken tick (hpart.length_le.trans hfew)
    exact wp_eq_error hturn hrun
  start T _ c hc hnamed failure d hrun := by
    subst hc
    exact wp_eq_error (PeerConnection.wp_start hnamed) hrun
  receive T _ c hc messages _ failure d hrun := by
    subst hc
    exact wp_eq_error (PeerConnection.wp_receive hpaced messages) hrun
  tick T _ c hc failure d hrun := by
    subst hc
    exact wp_eq_error (PeerConnection.wp_tick hpaced) hrun

lemma Traffic.unhindered [ReplicationStorage R] {network : Network R S} (h : Traffic network) :
    Unhindered network.left.session network.right.outbox := by
  have hlimits := h.swap.withinLimits.inFlight
  have hbound : inventoryPage + 4 ≤ maxTurnMessages := by decide
  exact Session.Paced.unhindered h.left.paced (hlimits.trans hbound)

/-- In every reachable state of two sessions joined by channels that lose and reorder nothing,
whatever the order of deliveries, ticks and changes of the storages, the messages in flight in
each direction are few, include one reply and one open request at most, and encode within the
limit of a frame; no call of a connection over either session fails because of such a limit. -/
theorem honest_traffic_within_limits [ReplicationStorage R] [ReplicationStorage S] (left : R)
    (right : S) (events : List (Network.Event R S)) :
    WithinLimits ((Network.new left right).run events).left.outbox
        ((Network.new left right).run events).right.outbox ∧
      WithinLimits ((Network.new left right).run events).right.outbox
        ((Network.new left right).run events).left.outbox ∧
      Unhindered ((Network.new left right).run events).left.session
        ((Network.new left right).run events).right.outbox ∧
      Unhindered ((Network.new left right).run events).right.session
        ((Network.new left right).run events).left.outbox := by
  have htraffic : Traffic ((Network.new left right).run events) :=
    (Traffic.of_new left right).run events
  exact ⟨htraffic.withinLimits, htraffic.swap.withinLimits, htraffic.unhindered,
    htraffic.swap.unhindered⟩

end EditChain.Sync
