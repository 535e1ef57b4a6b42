import EditChain.Sync.AccordTheorems
import EditChain.Sync.ReliableTheorems

/-!
# Honest replication never fails

Calls of a session in terms of the agreement with its peer, and the invariant of two joined
sessions: each direction agrees on what is in flight, and the hello comes first. No call then
fails, whatever the order of deliveries, ticks and local appends.
-/

namespace EditChain.Sync

open Core Fallible

/-! ## Messages of one kind -/

/-- The messages of a kind, in order. -/
def only (kind : Message.Kind) (messages : List Message) : List Message :=
  messages.filter fun message => message.kind = kind

section Only

variable {kind : Message.Kind} {messages : List Message} {message : Message}

@[simp] lemma only_append (others : List Message) :
    only kind (messages ++ others) = only kind messages ++ only kind others := List.filter_append ..

lemma only_cons_of_eq (h : message.kind = kind) :
    only kind (message :: messages) = message :: only kind messages := by
  simp [only, h]

lemma only_cons_of_ne (h : message.kind ≠ kind) :
    only kind (message :: messages) = only kind messages := by
  simp [only, h]

lemma only_eq_nil (h : tally kind messages = 0) : only kind messages = [] := by
  rw [tally_eq_zero] at h
  simpa [only] using h

lemma only_of_forall (h : ∀ message ∈ messages, message.kind = kind) :
    only kind messages = messages := by
  simpa [only] using h

lemma only_of_other {other : Message.Kind} (h : ∀ message ∈ messages, message.kind = other)
    (hne : other ≠ kind) : only kind messages = [] :=
  only_eq_nil (tally_of_forall h hne)

end Only

variable {Op : Type} [Schema Op] [Blake3] {R S : Type}
  {terms : Terms} {s : Session R} {source : Source}

/-! ## Calls -/

lemma SameWork.page {t : Session R} (same : SameWork s t) : SamePage s t where
  waitingPage := by rw [same.pull]
  position := by rw [same.pull]
  more := by rw [same.pull]
  after := by rw [same.pull]
  keys := by rw [same.pull]
  synchronizing := same.synchronizing
  total := same.total
  held key hheld := by
    rw [same.held]
    exact hheld

lemma Working.same {current sent : Option Object} {t : Session R}
    (h : Working terms current sent s source) (same : SameWork s t) :
    Working terms current sent t source := by
  refine h.congr same.page ?_ ?_ ?_ ?_
  · rw [same.pull]
  · rw [same.pull]
  · rw [same.pull]
  · intro object hobject
    rw [same.pull] at hobject
    exact .inl hobject

lemma Agreed.same {t : Session R} {requests answers : List Message}
    (h : Agreed terms s source requests answers) (same : SameWork s t) :
    Agreed terms t source requests answers := by
  have hpull := same.pull
  cases h with
  | idle clean resting synchronizing =>
    refine .idle clean ?_ (same.synchronizing.trans synchronizing)
    unfold Session.Waiting
    rw [hpull]
    exact resting
  | first clean waiting synchronizing free total =>
    exact .first clean (by rw [hpull]; exact waiting) (same.synchronizing.trans synchronizing)
      (hpull.trans free) (same.total.trans total)
  | next clean waiting synchronizing free staged stagedBytes blobs position more total =>
    rw [← hpull] at waiting free staged stagedBytes blobs position
    exact .next clean waiting (same.synchronizing.trans synchronizing) free staged stagedBytes
      blobs position more (same.total.trans total)
  | offered stocked active unacked awaiting waiting synchronizing free staged stagedBytes blobs
      records nodup short subset position nonempty cursor before =>
    rw [← same.total] at before
    rw [← hpull] at waiting free staged stagedBytes blobs position ⊢
    exact .offered stocked active unacked awaiting waiting
      (same.synchronizing.trans synchronizing) free staged stagedBytes blobs records nodup short
      subset position nonempty cursor before
  | asking download downloading working partway =>
    exact .asking download (by rw [hpull]; exact downloading) (working.same same) partway
  | sending download downloading bytes offers done bounded before part hpart working =>
    refine .sending download (by rw [hpull]; exact downloading) bytes offers done bounded before
      part hpart ?_
    split at working
    · rename_i hlast
      rw [if_pos hlast]
      exact ⟨working.1.same same, working.2⟩
    · rename_i hlast
      rw [if_neg hlast]
      exact ⟨working.1.same same, working.2⟩
  | absent download downloading working active fresh content =>
    exact .absent download (by rw [hpull]; exact downloading) (working.same same) active fresh
      content

/-- A call of an open session. -/
lemma wp_openCall {α : Type} {m : Fallible IoError (Session R) α} {ok : α → Session R → Prop}
    (hopened : s.failed = false)
    (h : wp m (fun a t => ok a { t with failed := false }) (fun _ _ => False) s) :
    wp (do Session.ensureOpen; Session.guarded m) ok (fun _ _ => False) s := by
  unfold Session.ensureOpen
  rw [wp_bind, wp_bind, wp_get, wp_ite]
  constructor
  · intro hfailed
    rw [hopened] at hfailed
    cases hfailed
  · intro _
    apply Session.wp_guarded
    apply wp_weaken h
    intro a t ht
    exact ht

section Calls

variable [ReplicationStorage R] {space : String} {good : R → Option Snapshot → Snapshot → Prop}

/-- A message of an accepted peer, when the scope is still valid. -/
lemma wp_accepted (hr : Reliable space terms good) (hgood : s.Good good)
    (hopened : s.failed = false) (haccepted : s.progress.accepted = true) {message : Message}
    {ok : List Message → Session R → Prop}
    (h : ∀ replica, good replica s.source.snapshot s.localSnapshot → wp (Session.dispatch message)
      (fun r t => ok r { t.updateWork with failed := false }) (fun _ _ => False)
      { s with replica := replica }) :
    wp (Session.receive message) ok (fun _ _ => False) s := by
  apply wp_openCall hopened
  unfold Session.process Session.onReplica
  rw [wp_bind, wp_zoom]
  apply wp_weaken (hr.ensureScope hgood)
  intro _ replica hreplica
  rw [wp_bind, wp_get, if_pos haccepted, wp_bind]
  apply wp_weaken (h replica hreplica)
  intro r t ht
  exact ht

/-- A reply is taken in. -/
lemma receive_reply (hr : Reliable space terms good) (hgood : s.Good good)
    (hopened : s.failed = false) (haccepted : s.progress.accepted = true) {message : Message}
    (h : Agreed terms s source [] [message]) :
    wp (Session.receive message)
      (fun r t => t.failed = false ∧ Concluded terms good source r t ∧
        pullFrame t = pullFrame s) (fun _ _ => False) s := by
  apply wp_accepted hr hgood hopened haccepted
  intro replica hreplica
  have hagreed : Agreed terms { s with replica := replica } source [] [message] :=
    h.same ⟨rfl, rfl, rfl, rfl, rfl⟩
  have hfinish : ∀ r (t : Session R), Concluded terms good source r t →
      Concluded terms good source r { t.updateWork with failed := false } := by
    rintro r t ⟨hgood', notices, requests, source', hreplies, hsettles, hagreed'⟩
    exact ⟨hgood', notices, requests, source', hreplies, hsettles,
      hagreed'.same ⟨rfl, rfl, rfl, rfl, rfl⟩⟩
  have hkind : message.kind = .reply := by
    cases h <;> rfl
  have hboth : wp (Session.dispatch message)
      (fun r t => Concluded terms good source r t ∧ pullFrame t = pullFrame s)
      (fun _ _ => False) { s with replica := replica } := by
    cases message with
    | page offset total records more =>
      have hkeeps : Keeps pullFrame (do
          Session.page offset total records more
          Session.advance [] : Fallible IoError (Session R) _) :=
        (keeps_pull_page offset total records more).bind fun _ => keeps_pull_advance []
      apply wp_mono (wp_and (accord_page hr hreplica hagreed)
        (hkeeps { s with replica := replica }))
      · intro r t ht
        exact ht
      · intro _ _ hfalse
        exact hfalse.1
    | chunk record blob offset total bytes =>
      apply wp_mono (wp_and (accord_chunk hr hreplica hagreed)
        (keeps_pull_chunk ⟨record, blob⟩ offset total bytes { s with replica := replica }))
      · intro r t ht
        exact ht
      · intro _ _ hfalse
        exact hfalse.1
    | missing record blob =>
      apply wp_mono (wp_and (accord_missing hr hreplica hagreed)
        (keeps_pull_missing ⟨record, blob⟩ { s with replica := replica }))
      · intro r t ht
        exact ht
      · intro _ _ hfalse
        exact hfalse.1
    | hello | inventory | need | ack | checked => cases hkind
  apply wp_weaken hboth
  intro r t ht
  exact ⟨rfl, hfinish r t ht.1, ht.2⟩

/-- A request of the peer is answered. -/
lemma receive_request (hr : Reliable space terms good) (hgood : s.Good good)
    (hopened : s.failed = false) (haccepted : s.progress.accepted = true) {peer : Session S}
    {message : Message} (h : Agreed terms peer s.source [message] []) :
    wp (Session.receive message)
      (fun r t => t.failed = false ∧ t.Good good ∧ SameWork s t ∧
        ∃ reply, r = [reply] ∧ Agreed terms peer t.source [] [reply])
      (fun _ _ => False) s := by
  apply wp_accepted hr hgood hopened haccepted
  intro replica hreplica
  have hkind : message.kind = .request := by
    cases h <;> rfl
  cases message with
  | inventory after =>
    show wp (Session.onSource (Source.inventory after) >>= fun reply => pure [reply]) _ _ _
    rw [wp_bind]
    apply Session.wp_onSource
    apply wp_weaken (agreed_inventory hr hreplica h)
    intro reply p hp
    exact ⟨rfl, hp.1, ⟨rfl, rfl, rfl, rfl, rfl⟩, reply, rfl, hp.2⟩
  | need record blob offset =>
    show wp (Session.onSource (Source.need ⟨record, blob⟩ offset) >>= fun reply => pure [reply])
      _ _ _
    rw [wp_bind]
    apply Session.wp_onSource
    cases h with
    | asking download downloading working partway =>
      apply wp_weaken (agreed_need hr hreplica downloading working partway)
      intro reply p hp
      exact ⟨rfl, hp.1, ⟨rfl, rfl, rfl, rfl, rfl⟩, reply, rfl, hp.2⟩
  | hello | page | chunk | missing | ack | checked => cases hkind

/-- A notice of the peer is taken in. -/
lemma receive_notice (hr : Reliable space terms good) (hgood : s.Good good)
    (hopened : s.failed = false) (haccepted : s.progress.accepted = true) {message : Message}
    {notices : List Message} (h : Settles s.source (message :: notices) source) :
    wp (Session.receive message)
      (fun r t => t.failed = false ∧ t.Good good ∧ SameWork s t ∧ r = [] ∧
        Settles t.source notices source)
      (fun _ _ => False) s := by
  apply wp_accepted hr hgood hopened haccepted
  intro replica hreplica
  have hkept : ∀ next, Settles s.source [message] next →
      good replica next.snapshot s.localSnapshot := by
    intro next htaken
    rw [htaken.frame.2.2.2.2.1]
    exact hreplica
  cases h with
  | ack taken rest =>
    rename_i next record blob
    show wp (Session.acknowledge ⟨record, blob⟩ >>= fun _ => pure []) _ _ _
    unfold Session.acknowledge Session.onSource Source.onSource
    rw [wp_bind, wp_bind, wp_zoom, wp_zoom]
    unfold wp
    dsimp only
    rw [taken]
    dsimp only
    refine ⟨rfl, hkept next (.ack taken (.nil _)), ⟨rfl, ?_, ?_, ?_, rfl⟩, rfl, rest⟩
    · show Progress.synchronizing (if _ then _ else _) = _
      split <;> rfl
    · show CheckProgress.totalRecords (Progress.incoming (if _ then _ else _)) = _
      split <;> rfl
    · show Progress.accepted (if _ then _ else _) = _
      split <;> rfl
  | checked taken rest =>
    rename_i next position
    show wp (Session.onSource (Source.onSource (Source.checked position)) >>= fun _ => pure [])
      _ _ _
    unfold Session.onSource Source.onSource
    rw [wp_bind, wp_zoom, wp_zoom]
    unfold wp
    dsimp only
    rw [taken]
    exact ⟨rfl, hkept next (.checked taken (.nil _)), ⟨rfl, rfl, rfl, rfl, rfl⟩, rfl, rest⟩

/-- The session at the start of a round. -/
structure Opening (t : Session R) : Prop where
  pull : t.pull = { waitingPage := true }
  synchronizing : t.progress.synchronizing = true
  total : t.progress.incoming.totalRecords = none

/-- A tick starts a round between two rounds, and does nothing else. -/
lemma tick_reliable (hr : Reliable space terms good) (hgood : s.Good good)
    (hopened : s.failed = false) :
    wp Session.tick
      (fun r t => t.failed = false ∧ t.Good good ∧ pullFrame t = pullFrame s ∧
        (r = [] ∧ SameWork s t ∧
            ¬ (s.progress.accepted = true ∧ s.progress.synchronizing = false) ∨
          (s.progress.accepted = true ∧ s.progress.synchronizing = false) ∧
            r = [.inventory none] ∧ Opening t))
      (fun _ _ => False) s := by
  apply wp_openCall hopened
  unfold Session.startRound Session.onReplica
  rw [wp_bind, wp_zoom]
  apply wp_weaken (hr.ensureScope hgood)
  intro _ replica hreplica
  rw [wp_bind, wp_get, wp_ite]
  constructor
  · intro hbusy
    refine ⟨rfl, hreplica, rfl, .inl ⟨rfl, ⟨rfl, rfl, rfl, rfl, rfl⟩, ?_⟩⟩
    rintro ⟨haccepted, hidle⟩
    simp only [haccepted, hidle] at hbusy
    cases hbusy
  · intro hidle
    rw [wp_bind, wp_zoom]
    apply wp_weaken (hr.receivingSnapshot hreplica)
    intro snapshot replica' hreplica'
    rw [wp_bind, wp_modify, wp_pure]
    refine ⟨rfl, hreplica', rfl, .inr ⟨?_, rfl, rfl, rfl, rfl⟩⟩
    simp only [Bool.or_eq_true, not_or, Bool.not_eq_true, Bool.not_eq_false'] at hidle
    exact hidle

/-- The hello of the peer starts the first round. -/
lemma receive_hello (hr : Reliable space terms good) (hgood : s.Good good)
    (hopened : s.failed = false) (hnew : s.progress.accepted = false)
    (hidle : s.progress.synchronizing = false) :
    wp (Session.receive (.hello peerVersion 1 space))
      (fun r t => t.failed = false ∧ t.Good good ∧ t.source = s.source ∧
        t.progress.accepted = true ∧ r = [.inventory none] ∧ Opening t)
      (fun _ _ => False) s := by
  apply wp_openCall hopened
  unfold Session.process Session.onReplica
  rw [wp_bind, wp_zoom]
  apply wp_weaken (hr.ensureScope hgood)
  intro _ replica hreplica
  rw [wp_bind, wp_get, if_neg (by rw [hnew]; exact Bool.false_ne_true)]
  unfold Session.negotiate
  rw [wp_bind, wp_get, wp_guard]
  refine ⟨fun hwrong => by simp [Session.incompatible] at hwrong, fun _ => ?_⟩
  rw [wp_guard]
  constructor
  · intro hne
    apply hne
    unfold Session.hello
    rw [hr.named hreplica]
  · intro _
    rw [wp_bind, wp_modify]
    apply wp_weaken (tick_reliable (s := { s with
      replica := replica, progress := { s.progress with accepted := true } }) hr hreplica hopened)
    intro r t ht
    obtain ⟨-, hgood', hframe, hround⟩ := ht
    have hsource : t.source = s.source := congrArg Prod.fst hframe
    have haccepted : t.progress.accepted = true := congrArg Prod.snd hframe
    rcases hround with ⟨-, -, hnot⟩ | ⟨-, hr', hopening⟩
    · exact absurd ⟨rfl, hidle⟩ hnot
    · exact ⟨rfl, hgood', hsource, haccepted, hr', hopening.pull, hopening.synchronizing,
        hopening.total⟩

end Calls

/-! ## Two honest endpoints -/

lemma Settles.kind {first last : Source} {notices : List Message}
    (h : Settles first notices last) : ∀ message ∈ notices, message.kind = .notice := by
  induction h with
  | nil => simp
  | ack _ _ ih =>
    intro message hmessage
    rcases List.mem_cons.mp hmessage with rfl | hrest
    · rfl
    · exact ih message hrest
  | checked _ _ ih =>
    intro message hmessage
    rcases List.mem_cons.mp hmessage with rfl | hrest
    · rfl
    · exact ih message hrest

/-- One request or one reply is in flight. -/
lemma Agreed.shape {requests answers : List Message}
    (h : Agreed terms s source requests answers) :
    (requests = [] ∨ answers = []) ∧ requests.length ≤ 1 ∧ answers.length ≤ 1 ∧
      ∀ message ∈ requests, message.kind = .request := by
  cases h <;> simp [Message.kind]

/-- Both ends of one direction agree on what is in flight. -/
def Accord (terms : Terms) (s : Session R) (peer : Source)
    (outgoing incoming : List Message) : Prop :=
  ∃ source, Settles peer (only .notice outgoing) source ∧
    Agreed terms s source (only .request outgoing) (only .reply incoming)

/-- The hello comes first; the flag says that the peer has heard it. -/
structure Greeting (space : String) (endpoint : Endpoint R) (heard : Bool) : Prop where
  /-- Nothing is asked for before the peer has been heard. -/
  unheard : endpoint.session.progress.accepted = false →
    endpoint.session.progress.synchronizing = false
  /-- Nothing is sent or taken in before the hello. -/
  silent : endpoint.greeted = false →
    endpoint.outbox = [] ∧ endpoint.session.progress.accepted = false ∧ heard = false
  first : endpoint.greeted = true → heard = false →
    ∃ rest, endpoint.outbox = .hello peerVersion 1 space :: rest ∧ tally .hello rest = 0
  once : heard = true → tally .hello endpoint.outbox = 0

/-- What holds of an endpoint and its peer. -/
structure Side (space : String) (terms : Terms) (good : R → Option Snapshot → Snapshot → Prop)
    (endpoint : Endpoint R) (peer : Endpoint S) : Prop where
  opened : endpoint.session.failed = false
  good : endpoint.session.Good good
  accord : Accord terms endpoint.session peer.session.source endpoint.outbox peer.outbox
  greeting : Greeting space endpoint peer.session.progress.accepted

/-- The invariant of two joined endpoints over storages that do not fail. -/
structure Honest (space : String) (terms : Terms)
    (goodLeft : R → Option Snapshot → Snapshot → Prop)
    (goodRight : S → Option Snapshot → Snapshot → Prop) (network : Network R S) : Prop where
  traffic : Traffic network
  left : Side space terms goodLeft network.left network.right
  right : Side space terms goodRight network.right network.left

/-- The outcome of a call of the left endpoint, for both directions. -/
structure Exchanged (terms : Terms) (good : R → Option Snapshot → Snapshot → Prop)
    (network : Network R S) (rest replies : List Message) (t : Session R) : Prop where
  opened : t.failed = false
  good : t.Good good
  outgoing : Accord terms t network.right.session.source (network.left.outbox ++ replies) rest
  incoming : Accord terms network.right.session t.source rest (network.left.outbox ++ replies)

section Honest

variable [ReplicationStorage R] {space : String} {goodLeft : R → Option Snapshot → Snapshot → Prop}
  {goodRight : S → Option Snapshot → Snapshot → Prop}
  {network : Network R S} {message : Message} {rest : List Message}

omit [ReplicationStorage R] in
/-- A round starts on the left. -/
lemma Accord.opening {t : Session R} {peer : Source} {outgoing incoming : List Message}
    (h : Accord terms s peer outgoing incoming) (hidle : s.progress.synchronizing = false)
    (hopening : Opening t) :
    Accord terms t peer (outgoing ++ [.inventory none]) incoming := by
  obtain ⟨source, hsettles, hagreed⟩ := h
  have hclean : Clean source ∧ only .request outgoing = [] ∧ only .reply incoming = [] := by
    generalize hrequests : only .request outgoing = requests at hagreed
    generalize hanswers : only .reply incoming = answers at hagreed
    cases hagreed with
    | idle clean => exact ⟨clean, rfl, rfl⟩
    | first _ _ synchronizing => exact absurd (hidle.symm.trans synchronizing) Bool.false_ne_true
    | next _ _ synchronizing => exact absurd (hidle.symm.trans synchronizing) Bool.false_ne_true
    | offered _ _ _ _ _ synchronizing =>
      exact absurd (hidle.symm.trans synchronizing) Bool.false_ne_true
    | asking _ _ working =>
      exact absurd (hidle.symm.trans working.synchronizing) Bool.false_ne_true
    | sending _ _ _ _ _ _ _ _ _ working =>
      split at working
      · exact absurd (hidle.symm.trans working.1.synchronizing) Bool.false_ne_true
      · exact absurd (hidle.symm.trans working.1.synchronizing) Bool.false_ne_true
    | absent _ _ working =>
      exact absurd (hidle.symm.trans working.synchronizing) Bool.false_ne_true
  refine ⟨source, ?_, ?_⟩
  · rw [only_append]
    show Settles peer (only .notice outgoing ++ []) source
    rw [List.append_nil]
    exact hsettles
  · rw [only_append, hclean.2.1, hclean.2.2]
    exact .first hclean.1 (by rw [hopening.pull]) hopening.synchronizing hopening.pull
      hopening.total

omit [ReplicationStorage R] in
/-- The other direction when nothing of it is taken in or answered. -/
lemma Accord.aside {peer : Source} {outgoing incoming replies : List Message}
    (h : Accord terms s peer outgoing incoming) (hreplies : tally .reply replies = 0) :
    Accord terms s peer outgoing (incoming ++ replies) := by
  obtain ⟨source, hsettles, hagreed⟩ := h
  refine ⟨source, hsettles, ?_⟩
  rw [only_append, only_eq_nil hreplies, List.append_nil]
  exact hagreed

omit [ReplicationStorage R] in
/-- A message that is not part of the direction is taken in. -/
lemma Accord.taken {peer : Source} {outgoing incoming : List Message}
    (h : Accord terms s peer (message :: outgoing) incoming)
    (hrequest : message.kind ≠ .request) (hnotice : message.kind ≠ .notice) :
    Accord terms s peer outgoing incoming := by
  obtain ⟨source, hsettles, hagreed⟩ := h
  rw [only_cons_of_ne hnotice] at hsettles
  rw [only_cons_of_ne hrequest] at hagreed
  exact ⟨source, hsettles, hagreed⟩

omit [ReplicationStorage R] in
/-- The session changes where the direction does not see it, and a message that is no reply is
taken in. -/
lemma Accord.same {t : Session R} {peer : Source} {outgoing incoming replies : List Message}
    (h : Accord terms s peer outgoing (message :: incoming)) (same : SameWork s t)
    (hkind : message.kind ≠ .reply) (hrequest : tally .request replies = 0)
    (hnotice : tally .notice replies = 0) :
    Accord terms t peer (outgoing ++ replies) incoming := by
  obtain ⟨source, hsettles, hagreed⟩ := h
  rw [only_cons_of_ne hkind] at hagreed
  refine ⟨source, ?_, ?_⟩
  · rw [only_append, only_eq_nil hnotice, List.append_nil]
    exact hsettles
  · rw [only_append, only_eq_nil hrequest, List.append_nil]
    exact hagreed.same same

/-- The hello of the peer arrives. -/
lemma exchange_hello (hr : Reliable space terms goodLeft)
    (h : Honest space terms goodLeft goodRight network)
    (hnew : network.left.session.progress.accepted = false)
    (hrest : network.right.outbox = message :: rest) :
    wp (Session.receive message)
      (fun r t => t.progress.accepted = true ∧ Exchanged terms goodLeft network rest r t)
      (fun _ _ => False) network.left.session := by
  have hleft := h.left
  have hright := h.right
  have hgreeted : network.right.greeted = true := by
    by_contra hnot
    have hempty := (hright.greeting.silent (Bool.not_eq_true _ ▸ hnot)).1
    rw [hrest] at hempty
    cases hempty
  obtain ⟨rest', hfirst, -⟩ := hright.greeting.first hgreeted hnew
  rw [hrest] at hfirst
  obtain ⟨rfl, rfl⟩ := List.cons.inj hfirst
  have hidle := hleft.greeting.unheard hnew
  have hkind : (Message.hello peerVersion 1 space).kind = .hello := rfl
  apply wp_weaken (receive_hello hr hleft.good hleft.opened hnew hidle)
  rintro r t ⟨hopened, hgood, hsource, haccepted, rfl, hopening⟩
  have hout := hleft.accord
  have hin := hright.accord
  rw [hrest] at hout hin
  refine ⟨haccepted, hopened, hgood, ?_, ?_⟩
  · obtain ⟨source, hsettles, hagreed⟩ := hout.opening hidle hopening
    rw [only_cons_of_ne (by rw [hkind]; decide)] at hagreed
    exact ⟨source, hsettles, hagreed⟩
  · rw [hsource]
    have htaken := hin.taken (by rw [hkind]; decide) (by rw [hkind]; decide)
    exact htaken.aside rfl

/-- A request arrives after all notices before it, and is answered. -/
lemma exchange_request (hr : Reliable space terms goodLeft)
    (h : Honest space terms goodLeft goodRight network)
    (haccepted : network.left.session.progress.accepted = true)
    (hrest : network.right.outbox = message :: rest) (hkind : message.kind = .request) :
    wp (Session.receive message)
      (fun r t => t.progress.accepted = true ∧ Exchanged terms goodLeft network rest r t)
      (fun _ _ => False) network.left.session := by
  have hleft := h.left
  have hout := hleft.accord
  have hin := h.right.accord
  have hlast := h.traffic.right.last
  rw [hrest] at hout hin hlast
  obtain ⟨source, hsettles, hagreed⟩ := hin
  have hnotices : only .notice rest = [] := by
    apply only_eq_nil
    rw [tally_eq_zero]
    intro other hother
    exact (List.pairwise_cons.mp hlast).1 other hother hkind
  rw [only_cons_of_ne (by rw [hkind]; decide), hnotices] at hsettles
  rw [only_cons_of_eq hkind] at hagreed
  obtain ⟨hone, hfew, -, -⟩ := hagreed.shape
  have hrequests : only .request rest = [] := by
    rw [List.length_cons] at hfew
    exact List.length_eq_zero_iff.mp (by omega)
  have hanswers : only .reply network.left.outbox = [] := by
    rcases hone with hnone | hnone
    · cases hnone
    · exact hnone
  rw [hrequests, hanswers] at hagreed
  cases hsettles
  apply wp_weaken (receive_request hr hleft.good hleft.opened haccepted hagreed)
  rintro r t ⟨hopened, hgood, same, reply, rfl, hanswered⟩
  have hreply : reply.kind = .reply := by
    cases hanswered <;> rfl
  refine ⟨same.accepted.trans haccepted, hopened, hgood, ?_, t.source, ?_, ?_⟩
  · apply hout.same same
    · rw [hkind]
      decide
    · simp [hreply]
    · simp [hreply]
  · rw [hnotices]
    exact .nil _
  · rw [hrequests, only_append, hanswers, only_cons_of_eq hreply]
    exact hanswered

/-- A notice arrives. -/
lemma exchange_notice (hr : Reliable space terms goodLeft)
    (h : Honest space terms goodLeft goodRight network)
    (haccepted : network.left.session.progress.accepted = true)
    (hrest : network.right.outbox = message :: rest) (hkind : message.kind = .notice) :
    wp (Session.receive message)
      (fun r t => t.progress.accepted = true ∧ Exchanged terms goodLeft network rest r t)
      (fun _ _ => False) network.left.session := by
  have hleft := h.left
  have hout := hleft.accord
  have hin := h.right.accord
  rw [hrest] at hout hin
  obtain ⟨source, hsettles, hagreed⟩ := hin
  rw [only_cons_of_eq hkind] at hsettles
  rw [only_cons_of_ne (by rw [hkind]; decide)] at hagreed
  apply wp_weaken (receive_notice hr hleft.good hleft.opened haccepted hsettles)
  rintro r t ⟨hopened, hgood, same, rfl, hsettled⟩
  refine ⟨same.accepted.trans haccepted, hopened, hgood, ?_, source, hsettled, ?_⟩
  · apply hout.same same
    · rw [hkind]
      decide
    · rfl
    · rfl
  · rw [List.append_nil]
    exact hagreed

/-- A reply arrives when all notices sent before its request have arrived. -/
lemma exchange_reply (hr : Reliable space terms goodLeft)
    (h : Honest space terms goodLeft goodRight network)
    (haccepted : network.left.session.progress.accepted = true)
    (hrest : network.right.outbox = message :: rest) (hkind : message.kind = .reply) :
    wp (Session.receive message)
      (fun r t => t.progress.accepted = true ∧ Exchanged terms goodLeft network rest r t)
      (fun _ _ => False) network.left.session := by
  have hleft := h.left
  have hout := hleft.accord
  have hin := h.right.accord
  have hanswered := h.traffic.left.answered
  rw [hrest] at hout hin hanswered
  obtain ⟨source, hsettles, hagreed⟩ := hout
  have hnotices : only .notice network.left.outbox = [] :=
    only_eq_nil (hanswered (by simp [hkind]))
  rw [hnotices] at hsettles
  rw [only_cons_of_eq hkind] at hagreed
  obtain ⟨hone, -, hfew, -⟩ := hagreed.shape
  have hanswers : only .reply rest = [] := by
    rw [List.length_cons] at hfew
    exact List.length_eq_zero_iff.mp (by omega)
  have hrequests : only .request network.left.outbox = [] := by
    rcases hone with hnone | hnone
    · exact hnone
    · cases hnone
  rw [hrequests, hanswers] at hagreed
  cases hsettles
  apply wp_weaken (receive_reply hr hleft.good hleft.opened haccepted hagreed)
  rintro r t ⟨hopened, ⟨hgood, notices, requests, source', rfl, hsettled, hnext⟩, hframe⟩
  have hsource : t.source = network.left.session.source := congrArg Prod.fst hframe
  have hstill : t.progress.accepted = true := (congrArg Prod.snd hframe).trans haccepted
  have hnoticeKind := hsettled.kind
  have hrequestKind := hnext.shape.2.2.2
  refine ⟨hstill, hopened, hgood, ⟨source', ?_, ?_⟩, ?_⟩
  · rw [only_append, only_append, hnotices, only_of_forall hnoticeKind,
      only_of_other hrequestKind (by decide), List.append_nil]
    exact hsettled
  · rw [only_append, only_append, hrequests, only_of_other hnoticeKind (by decide),
      only_of_forall hrequestKind, hanswers]
    exact hnext
  · rw [hsource]
    have htaken := hin.taken (by rw [hkind]; decide) (by rw [hkind]; decide)
    apply htaken.aside
    rw [tally_append, tally_of_forall hnoticeKind (by decide),
      tally_of_forall hrequestKind (by decide)]

/-- Whatever message arrives next, the call succeeds and both directions agree. -/
lemma exchange_receive (hr : Reliable space terms goodLeft)
    (h : Honest space terms goodLeft goodRight network)
    (hrest : network.right.outbox = message :: rest) :
    wp (Session.receive message)
      (fun r t => t.progress.accepted = true ∧ Exchanged terms goodLeft network rest r t)
      (fun _ _ => False) network.left.session := by
  by_cases haccepted : network.left.session.progress.accepted = true
  · cases hkind : message.kind with
    | hello =>
      have honce := h.right.greeting.once haccepted
      rw [hrest, tally_cons, if_pos hkind] at honce
      omega
    | request => exact exchange_request hr h haccepted hrest hkind
    | reply => exact exchange_reply hr h haccepted hrest hkind
    | notice => exact exchange_notice hr h haccepted hrest hkind
  · exact exchange_hello hr h (Bool.not_eq_true _ ▸ haccepted) hrest

/-- A tick succeeds, and both directions agree. -/
lemma exchange_tick (hr : Reliable space terms goodLeft)
    (h : Honest space terms goodLeft goodRight network) :
    wp Session.tick
      (fun r t => t.progress.accepted = network.left.session.progress.accepted ∧
        (t.progress.accepted = false → t.progress.synchronizing = false) ∧
        Exchanged terms goodLeft network network.right.outbox r t)
      (fun _ _ => False) network.left.session := by
  have hleft := h.left
  have hin := h.right.accord
  apply wp_mono (wp_and (tick_reliable hr hleft.good hleft.opened) (Session.wp_tick none))
  · rintro r t ⟨⟨hopened, hgood, hframe, hround⟩, hconduct, -⟩
    have hsource : t.source = network.left.session.source := congrArg Prod.fst hframe
    have haccepted : t.progress.accepted = network.left.session.progress.accepted :=
      congrArg Prod.snd hframe
    rcases hround with ⟨rfl, same, -⟩ | ⟨⟨hheard, hidle⟩, rfl, hopening⟩
    · refine ⟨haccepted, ?_, hopened, hgood, ?_, ?_⟩
      · rw [same.accepted, same.synchronizing]
        exact hleft.greeting.unheard
      · obtain ⟨source, hsettles, hagreed⟩ := hleft.accord
        rw [List.append_nil]
        exact ⟨source, hsettles, hagreed.same same⟩
      · rw [hsource, List.append_nil]
        exact hin
    · refine ⟨haccepted, ?_, hopened, hgood, hleft.accord.opening hidle hopening, ?_⟩
      · intro hnot
        exact absurd (hnot.symm.trans (haccepted.trans hheard)) Bool.false_ne_true
      · rw [hsource]
        exact hin.aside rfl
  · intro _ _ hfalse
    exact hfalse.1

omit [ReplicationStorage R] in
/-- Messages without a hello are sent. -/
lemma Greeting.sent {endpoint : Endpoint R} {heard : Bool} {t : Session R} {replies : List Message}
    (h : Greeting space endpoint heard) (hgreeted : endpoint.greeted = true)
    (hreplies : tally .hello replies = 0)
    (hunheard : t.progress.accepted = false → t.progress.synchronizing = false) :
    Greeting space { endpoint with session := t, outbox := endpoint.outbox ++ replies } heard where
  unheard := hunheard
  silent hnot := absurd (hnot.symm.trans hgreeted) Bool.false_ne_true
  first _ hnot := by
    obtain ⟨rest, hfirst, htally⟩ := h.first hgreeted hnot
    refine ⟨rest ++ replies, ?_, ?_⟩
    · show endpoint.outbox ++ replies = _
      rw [hfirst]
      rfl
    · rw [tally_append, htally, hreplies]
  once hheard := by
    show tally .hello (endpoint.outbox ++ replies) = 0
    rw [tally_append, h.once hheard, hreplies]

omit [ReplicationStorage R] in
/-- The first message is taken in, which may be the hello. -/
lemma Greeting.taken {endpoint : Endpoint R} {heard : Bool} (h : Greeting space endpoint heard)
    (hrest : endpoint.outbox = message :: rest) :
    Greeting space { endpoint with outbox := rest } true := by
  have hgreeted : endpoint.greeted = true := by
    by_contra hnot
    have hempty := (h.silent (Bool.not_eq_true _ ▸ hnot)).1
    rw [hrest] at hempty
    cases hempty
  refine ⟨h.unheard, ?_, ?_, ?_⟩
  · intro hnot
    exact absurd (hnot.symm.trans hgreeted) Bool.false_ne_true
  · intro _ hnot
    cases hnot
  · intro _
    show tally .hello rest = 0
    cases heard with
    | true =>
      have honce := h.once rfl
      rw [hrest, tally_cons] at honce
      omega
    | false =>
      obtain ⟨rest', hfirst, htally⟩ := h.first hgreeted rfl
      rw [hrest] at hfirst
      obtain ⟨-, rfl⟩ := List.cons.inj hfirst
      exact htally

omit [ReplicationStorage R] in
/-- A call of the left endpoint that succeeds keeps the invariant. -/
lemma Honest.call (h : Honest space terms goodLeft goodRight network)
    (hgreeted : network.left.greeted = true)
    {m : Fallible IoError (Session R) (List Message)}
    (hm : wp m (fun r t => Exchanged terms goodLeft network rest r t ∧
      tally .hello r = 0 ∧ (t.progress.accepted = false → t.progress.synchronizing = false) ∧
      Greeting space { network.right with outbox := rest } t.progress.accepted)
      (fun _ _ => False) network.left.session)
    (htraffic : Traffic (Network.mk (network.left.call m) { network.right with outbox := rest })) :
    Honest space terms goodLeft goodRight
      (Network.mk (network.left.call m) { network.right with outbox := rest }) := by
  unfold Endpoint.call at htraffic ⊢
  unfold wp at hm
  cases hrun : m.exec network.left.session with
  | mk result t =>
    rw [hrun] at hm htraffic
    cases result with
    | error e => exact hm.elim
    | ok r =>
      obtain ⟨hexchanged, hhello, hunheard, hgreeting⟩ := hm
      exact ⟨htraffic, ⟨hexchanged.opened, hexchanged.good, hexchanged.outgoing,
        h.left.greeting.sent hgreeted hhello hunheard⟩,
        ⟨h.right.opened, h.right.good, hexchanged.incoming, hgreeting⟩⟩

/-- The left endpoint sends its hello. -/
lemma Honest.greet (hr : Reliable space terms goodLeft)
    (h : Honest space terms goodLeft goodRight network) :
    Honest space terms goodLeft goodRight
      { network with left := network.left.greet } := by
  have hleft := h.left
  have hright := h.right
  have htraffic := h.traffic.greet
  unfold Endpoint.greet at htraffic ⊢
  by_cases hgreeted : network.left.greeted = true
  · rw [if_pos hgreeted]
    exact h
  · rw [if_neg hgreeted] at htraffic ⊢
    obtain ⟨hempty, hnew, hunheard⟩ :=
      hleft.greeting.silent (Bool.not_eq_true _ ▸ hgreeted)
    have hhello : network.left.session.hello = .hello peerVersion 1 space := by
      unfold Session.hello
      rw [hr.named hleft.good]
    have hkind : (Message.hello peerVersion 1 space).kind = .hello := rfl
    rw [hhello] at htraffic ⊢
    refine ⟨htraffic, ⟨hleft.opened, hleft.good, ?_, ?_⟩,
      ⟨hright.opened, hright.good, ?_, hright.greeting⟩⟩
    · obtain ⟨source, hsettles, hagreed⟩ := hleft.accord
      have hnotice : only .notice [Message.hello peerVersion 1 space] = [] := rfl
      have hrequest : only .request [Message.hello peerVersion 1 space] = [] := rfl
      refine ⟨source, ?_, ?_⟩
      · rw [only_append, hnotice, List.append_nil]
        exact hsettles
      · rw [only_append, hrequest, List.append_nil]
        exact hagreed
    · refine ⟨hleft.greeting.unheard, ?_, ?_, ?_⟩
      · intro hnot
        cases hnot
      · intro _ _
        refine ⟨[], ?_, rfl⟩
        show network.left.outbox ++ _ = _
        rw [hempty]
        rfl
      · intro hheard
        exact absurd (hunheard.symm.trans hheard) Bool.false_ne_true
    · exact hright.accord.aside (by simp [hkind])

/-- Whatever the left endpoint does keeps the invariant. -/
lemma Honest.act (hr : Reliable space terms goodLeft)
    (h : Honest space terms goodLeft goodRight network) (action : Action R)
    (hchange : ∀ f, action = .change f →
      ∀ r offered held, goodLeft r offered held → goodLeft (f r) offered held) :
    Honest space terms goodLeft goodRight (network.act action) := by
  have htraffic := h.traffic.act action
  cases action with
  | greet => exact h.greet hr
  | deliver =>
    by_cases hnext : network.left.greeted = true ∧ network.right.outbox ≠ []
    · obtain ⟨hgreeted, hne⟩ := hnext
      obtain ⟨message, rest, hrest⟩ := List.exists_cons_of_ne_nil hne
      have hstep : network.act .deliver = Network.mk
          (network.left.call (Session.receive message)) { network.right with outbox := rest } := by
        unfold Network.act
        rw [hgreeted, hrest]
      rw [hstep] at htraffic ⊢
      refine h.call hgreeted ?_ htraffic
      apply wp_mono (wp_and (exchange_receive hr h hrest)
        (Session.wp_receive h.traffic.left.paced message))
      · rintro r t ⟨⟨haccepted, hexchanged⟩, hconduct⟩
        refine ⟨hexchanged, hconduct.tally_hello, ?_, ?_⟩
        · intro hnot
          exact absurd (hnot.symm.trans haccepted) Bool.false_ne_true
        · rw [haccepted]
          exact h.right.greeting.taken hrest
      · intro _ _ hfalse
        exact hfalse.1
    · have hstep : network.act .deliver = network := by
        unfold Network.act
        dsimp only
        split
        · rename_i message rest hgreeted hrest
          exact absurd ⟨hgreeted, by rw [hrest]; exact List.cons_ne_nil _ _⟩ hnext
        · rfl
      rw [hstep]
      exact h
  | tick =>
    by_cases hgreeted : network.left.greeted = true
    · have hstep : network.act .tick = Network.mk (network.left.call Session.tick)
          { network.right with outbox := network.right.outbox } := by
        unfold Network.act
        dsimp only
        rw [if_pos hgreeted]
      rw [hstep] at htraffic ⊢
      refine h.call hgreeted ?_ htraffic
      apply wp_mono (wp_and (exchange_tick hr h) (Session.wp_tick none))
      · rintro r t ⟨⟨haccepted, hunheard, hexchanged⟩, hconduct, -⟩
        refine ⟨hexchanged, hconduct.tally_hello, hunheard, ?_⟩
        rw [haccepted]
        exact h.right.greeting
      · intro _ _ hfalse
        exact hfalse.1
    · have hstep : network.act .tick = network := by
        unfold Network.act
        dsimp only
        rw [if_neg hgreeted]
      rw [hstep]
      exact h
  | change f =>
    obtain ⟨source, hsettles, hagreed⟩ := h.left.accord
    have hgreeting := h.left.greeting
    refine ⟨htraffic, ⟨h.left.opened, hchange f rfl _ _ _ h.left.good, ⟨source, hsettles,
      hagreed.same ⟨rfl, rfl, rfl, rfl, rfl⟩⟩, ⟨hgreeting.unheard, hgreeting.silent, hgreeting.first,
        hgreeting.once⟩⟩, ⟨h.right.opened, h.right.good, h.right.accord, h.right.greeting⟩⟩

omit [ReplicationStorage R] in
lemma Honest.swap (h : Honest space terms goodLeft goodRight network) :
    Honest space terms goodRight goodLeft network.swap :=
  ⟨h.traffic.swap, h.right, h.left⟩

omit [ReplicationStorage R] in
/-- Fresh sessions agree. -/
lemma Accord.of_new (replica : R) (other : S) :
    Accord terms (Session.new replica) (Session.new other).source [] [] := by
  refine ⟨{}, .nil _, .idle ⟨stocked_empty, rfl, rfl, rfl⟩ ?_ rfl⟩
  rintro (hpage | hobject)
  · cases hpage
  · exact hobject rfl

omit [ReplicationStorage R] in
lemma Side.of_new {left : R} {right : S} (hgood : goodLeft left none .empty) :
    Side space terms goodLeft (Network.new left right).left
      (Network.new left right).right where
  opened := rfl
  good := hgood
  accord := .of_new left right
  greeting := by
    refine ⟨fun _ => rfl, fun _ => ⟨rfl, rfl, rfl⟩, ?_, ?_⟩
    · intro hnot
      cases hnot
    · intro hnot
      cases hnot

end Honest

/-! ## No call fails -/

/-- A local append, or another change that leaves a storage reliable. -/
def Network.Event.Harmless (goodLeft : R → Option Snapshot → Snapshot → Prop)
    (goodRight : S → Option Snapshot → Snapshot → Prop) : Network.Event R S → Prop
  | .left (.change f) => ∀ r offered held, goodLeft r offered held → goodLeft (f r) offered held
  | .right (.change f) => ∀ r offered held, goodRight r offered held → goodRight (f r) offered held
  | _ => True

section Run

variable [ReplicationStorage R] [ReplicationStorage S] {space : String}
  {goodLeft : R → Option Snapshot → Snapshot → Prop}
  {goodRight : S → Option Snapshot → Snapshot → Prop} {network : Network R S}

lemma Honest.step (hl : Reliable space terms goodLeft) (hr : Reliable space terms goodRight)
    (h : Honest space terms goodLeft goodRight network) (event : Network.Event R S)
    (hevent : event.Harmless goodLeft goodRight) :
    Honest space terms goodLeft goodRight (network.step event) := by
  cases event with
  | left action =>
    apply h.act hl action
    rintro f rfl
    exact hevent
  | right action =>
    refine (h.swap.act hr action ?_).swap
    rintro f rfl
    exact hevent

lemma Honest.run (hl : Reliable space terms goodLeft) (hr : Reliable space terms goodRight)
    (h : Honest space terms goodLeft goodRight network) (events : List (Network.Event R S))
    (hevents : ∀ event ∈ events, event.Harmless goodLeft goodRight) :
    Honest space terms goodLeft goodRight (network.run events) := by
  induction events generalizing network with
  | nil => exact h
  | cons event events ih =>
    apply ih (h.step hl hr event (hevents event List.mem_cons_self))
    intro other hother
    exact hevents other (List.mem_cons_of_mem _ hother)

end Run

/-- No call of the left endpoint returns an error: a tick, or the next message that arrives. -/
structure CallsSucceed [ReplicationStorage R] (network : Network R S) : Prop where
  opened : network.left.session.failed = false
  tick : (Session.tick.exec network.left.session).1.isOk = true
  receive : ∀ message rest, network.right.outbox = message :: rest →
    ((Session.receive message).exec network.left.session).1.isOk = true

lemma isOk_of_wp {m : Fallible IoError (Session R) (List Message)}
    {ok : List Message → Session R → Prop} (h : wp m ok (fun _ _ => False) s) :
    (m.exec s).1.isOk = true := by
  unfold wp at h
  cases hrun : m.exec s with
  | mk result t =>
    rw [hrun] at h
    cases result with
    | ok r => rfl
    | error e => exact h.elim

lemma Honest.callsSucceed [ReplicationStorage R] {space : String}
    {goodLeft : R → Option Snapshot → Snapshot → Prop}
    {goodRight : S → Option Snapshot → Snapshot → Prop} {network : Network R S}
    (hl : Reliable space terms goodLeft) (h : Honest space terms goodLeft goodRight network) :
    CallsSucceed network where
  opened := h.left.opened
  tick := isOk_of_wp (exchange_tick hl h)
  receive _ _ hrest := isOk_of_wp (exchange_receive hl h hrest)

/-- Two sessions of one namespace over storages that never return an error, joined by channels
that lose and reorder nothing: in every order of deliveries, ticks and local appends, no call of
either session returns an error. -/
theorem honest_replication_never_fails [ReplicationStorage R] [ReplicationStorage S]
    (space : String) (terms : Terms) (goodLeft : R → Option Snapshot → Snapshot → Prop)
    (goodRight : S → Option Snapshot → Snapshot → Prop) (hl : Reliable space terms goodLeft)
    (hr : Reliable space terms goodRight) (left : R) (right : S)
    (hleft : goodLeft left none .empty) (hright : goodRight right none .empty)
    (events : List (Network.Event R S))
    (hevents : ∀ event ∈ events, event.Harmless goodLeft goodRight) :
    CallsSucceed ((Network.new left right).run events) ∧
      CallsSucceed ((Network.new left right).run events).swap := by
  have hother : Side space terms goodRight (Network.new right left).left
      (Network.new right left).right := .of_new hright
  have hnew : Honest space terms goodLeft goodRight (Network.new left right) :=
    ⟨.of_new left right, .of_new hleft, hother⟩
  have hhonest := hnew.run hl hr events hevents
  exact ⟨hhonest.callsSucceed hl, hhonest.swap.callsSucceed hr⟩

end EditChain.Sync

/-! ## Two replicas -/

namespace EditChain.Sync

open Core Store

section Messages

local instance honestSchema : Schema OpId := messageSchema
local instance honestDigests : Blake3 := contentDigests
local instance honestContent : ContentSchema OpId := greetingContent
local instance honestStorage :
    ReplicationStorage (StoreReplica MemoryLog (List Bytes) ExportScope) :=
  StoreReplica.storage memoryAdapters

/-- Two variants of a message, and the greeting that both refer to. -/
def greetings : Holdings := ⟨{messageV1, messageV3}, {greeting}⟩

lemma greetings_sound : greetings.Sound where
  few := by decide
  keyed := by
    intro bytes hbytes
    simp only [greetings, Finset.mem_insert, Finset.mem_singleton] at hbytes
    rcases hbytes with rfl | rfl
    · exact ⟨⟨messageId, Blake3.hash messageV1⟩, by decide +kernel⟩
    · exact ⟨⟨messageId, Blake3.hash messageV3⟩, by decide +kernel⟩
  apart := by decide +kernel
  modest _ _ _ _ := by
    have hone : (greetingContent.references 0).size ≤ maxReferences := by decide +kernel
    exact hone
  short _ hbytes := by
    rw [Set.mem_singleton_iff.mp hbytes]
    decide +kernel
  matching _ _ _ _ _ hbytes _ := by
    rw [Set.mem_singleton_iff.mp hbytes]
    have hmatches : matchesLen (greetingContent.references 0) (contentDigests.hash greeting)
        greeting.length = true := by decide +kernel
    exact hmatches

/-- A replica in memory that shares the whole chain. -/
def holding (records blobs : List Bytes) : StoreReplica MemoryLog (List Bytes) ExportScope :=
  .new ⟨records.map (⟨⟨0, ·⟩, true⟩), []⟩ blobs ⟨"chain", none, none⟩

/-- A replica of these records, without faults. -/
abbrev Greets : StoreReplica MemoryLog (List Bytes) ExportScope → Option Snapshot → Snapshot →
    Prop :=
  StoreReplica.Serves memoryAdapters MemoryLog.lawful greetings (fun log => log.faults = [])
    (fun blobs => ∀ bytes ∈ blobs, bytes ∈ greetings.content) ⟨"chain", none, none⟩

lemma greets_reliable : Reliable "chain" greetings.terms Greets :=
  StoreReplica.reliable greetings_sound
    (StoreReplica.memory_unfailing greetings ⟨"chain", none, none⟩)

/-- The second variant is recorded locally. -/
def recordSecond (replica : StoreReplica MemoryLog (List Bytes) ExportScope) :
    StoreReplica MemoryLog (List Bytes) ExportScope :=
  ((StoreReplica.append memoryAdapters [(⟨messageId, Blake3.hash messageV3⟩, messageV3)]).exec
    replica).2

lemma recordSecond_greets {replica : StoreReplica MemoryLog (List Bytes) ExportScope}
    {offered : Option Snapshot} {held : Snapshot} (h : Greets replica offered held) :
    Greets (recordSecond replica) offered held := by
  apply h.append greetings_sound (StoreReplica.memory_unfailing greetings _)
  · decide +kernel
  · intro record hrecord
    rw [List.mem_singleton.mp hrecord]
    decide +kernel

/-- Some deliveries to both ends. -/
def deliveries (n : ℕ) : List (Network.Event
    (StoreReplica MemoryLog (List Bytes) ExportScope)
    (StoreReplica MemoryLog (List Bytes) ExportScope)) :=
  (List.replicate n [.left .deliver, .right .deliver]).flatten

/-- Both greet, and the right replica pulls a record and its content; then it records another
variant, which the left replica pulls. -/
def greetingEvents : List (Network.Event (StoreReplica MemoryLog (List Bytes) ExportScope)
    (StoreReplica MemoryLog (List Bytes) ExportScope)) :=
  [.left .greet, .right .greet] ++ deliveries 10 ++ [.right (.change recordSecond), .right .tick,
    .left .tick] ++ deliveries 10

lemma greetingEvents_harmless : ∀ event ∈ greetingEvents, event.Harmless Greets Greets := by
  have hdeliveries : ∀ event ∈ deliveries 10, event.Harmless Greets Greets := by
    intro event hevent
    obtain ⟨pair, hpair, hevent⟩ := List.mem_flatten.mp hevent
    rw [List.eq_of_mem_replicate hpair] at hevent
    rcases List.mem_pair.mp hevent with rfl | rfl
    · trivial
    · trivial
  unfold greetingEvents
  simp only [List.forall_mem_append, List.forall_mem_cons]
  refine ⟨⟨⟨⟨trivial, trivial, by simp⟩, hdeliveries⟩, ?_, trivial, trivial, by simp⟩,
    hdeliveries⟩
  exact fun _ _ _ h => recordSecond_greets h

/-- Record, content and variant arrive, and no call fails. -/
theorem honest_replication_greetings :
    (∀ replica ∈ [
        ((Network.new (holding [messageV1] [greeting]) (holding [] [])).run
          greetingEvents).left.session.replica,
        ((Network.new (holding [messageV1] [greeting]) (holding [] [])).run
          greetingEvents).right.session.replica],
      replica.log.entries.map (fun entry => entry.record.data) = [messageV1, messageV3]
        ∧ greeting ∈ replica.blobs)
      ∧ CallsSucceed ((Network.new (holding [messageV1] [greeting]) (holding [] [])).run
        greetingEvents)
      ∧ CallsSucceed ((Network.new (holding [messageV1] [greeting]) (holding [] [])).run
        greetingEvents).swap :=
  ⟨by decide +kernel, honest_replication_never_fails "chain" greetings.terms Greets Greets
    greets_reliable greets_reliable _ _ (.of_new rfl (by simp [greetings]) (by decide +kernel))
    (.of_new rfl (by simp) (by decide +kernel)) greetingEvents greetingEvents_harmless⟩

end Messages

end EditChain.Sync
