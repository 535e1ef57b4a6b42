import EditChain.Lib.Preserves
import EditChain.Sync.Secure
import EditChain.Sync.StreamTheorems

/-!
# Nothing is exchanged without an approval

Whatever the TLS library, the peer and the policy file do, the session of a secure peer is only
worked on in turns in which the policy file approves the authenticated device.
-/

namespace EditChain.Sync.Secure

open Core Fallible

variable [Credentials]

/-! ## Approvals -/

/-- What the policy file approves has exactly the certificate that was asked for. -/
lemma certificate_of_require {membership : Membership} {policy : Except IoError Bytes}
    {certificate : Bytes} {device : PublicDevice}
    (h : membership.require policy certificate = .ok device) :
    certificateDer device.certificate = .ok certificate := by
  unfold Membership.require at h
  obtain ⟨members, -, h⟩ := bind_eq_ok.mp h
  cases hfound : members.devices[Credentials.fingerprint certificate]? with
  | none =>
    rw [hfound] at h
    cases h
  | some found =>
    rw [hfound] at h
    obtain ⟨der, hder, h⟩ := bind_eq_ok.mp h
    obtain ⟨hsame, h⟩ := guard_eq_ok.mp h
    cases h
    rw [hder, not_not.mp hsame]

/-- The policy file approves the certificate of a device, which is the expected one. -/
def Approved (policy : Except IoError Bytes) (membership : Membership) (expected : Option String)
    (device : PublicDevice) : Prop :=
  (∃ der approved, certificateDer device.certificate = .ok der
    ∧ membership.require policy der = .ok approved)
    ∧ ∀ fingerprint ∈ expected, fingerprint = device.fingerprint

variable {Op : Type} [Schema Op] [Blake3] {R C : Type}

/-- What every call of the TLS library keeps, but the writing of application data. -/
structure Keeping [Tls C] (unwritten : C → Prop) : Prop where
  readTls : ∀ bytes, Preserves unwritten (Tls.readTls (C := C) bytes)
  processNewPackets : Preserves unwritten (Tls.processNewPackets (C := C))
  read : ∀ n, Preserves unwritten (Tls.read (C := C) n)
  writeTls : Preserves unwritten (Tls.writeTls (C := C))

/-- The handshake of a connection is done, with these certificates of the peer. -/
def Finished [Tls C] (certificates : Option (List Bytes)) (connection : C) : Prop :=
  Tls.isHandshaking connection = false ∧ Tls.peerCertificates connection = certificates

/-- The certificates that the peer has presented in the handshake stay what they are. -/
structure Steady (C : Type) [Tls C] : Prop where
  readTls : ∀ certificates bytes, Preserves (Finished certificates) (Tls.readTls (C := C) bytes)
  processNewPackets : ∀ certificates,
    Preserves (Finished certificates) (Tls.processNewPackets (C := C))
  read : ∀ certificates n, Preserves (Finished certificates) (Tls.read (C := C) n)
  writeAll : ∀ certificates bytes, Preserves (Finished certificates) (Tls.writeAll (C := C) bytes)
  writeTls : ∀ certificates, Preserves (Finished certificates) (Tls.writeTls (C := C))

/-- The certificate of a device is the one that the peer has presented. -/
def Presents [Tls C] (connection : C) (device : PublicDevice) : Prop :=
  ∃ der, Finished (some [der]) connection ∧ certificateDer device.certificate = .ok der

omit [Schema Op] [Blake3] in
/-- It stays so where the certificates do. -/
lemma Presents.mono [Tls C] {connection connection' : C} {device : PublicDevice}
    (h : Presents connection device)
    (hstays : ∀ certificates, Finished certificates connection →
      Finished certificates connection') :
    Presents connection' device := by
  obtain ⟨der, hfinished, hder⟩ := h
  exact ⟨der, hstays _ hfinished, hder⟩

/-! ## Within a turn -/

variable [Tls C]

/-- A turn of a peer: without an authenticated device, nothing has happened to the session and no
application data was written; with one, the policy file approves it, and it is the device of the
certificate that was presented if such certificates stay. -/
structure Guarded (unwritten : C → Prop) (steady : Prop) (policy : Except IoError Bytes)
    (before : SecurePeer R C) (turn : Turn R C) : Prop where
  sameMembership : turn.peer.membership = before.membership
  sameExpected : turn.peer.expected = before.expected
  quiet : turn.peer.authenticated = none →
    turn.peer.session = before.session ∧ unwritten turn.peer.connection
  cleared : ∀ device, turn.peer.authenticated = some device →
    Approved policy before.membership before.expected device
  stays : ∀ device, before.authenticated = some device →
    turn.peer.authenticated = some device
  presented : steady → ∀ device, turn.peer.authenticated = some device →
    Presents turn.peer.connection device
  output : turn.output.length ≤ maxBridgeOutput

/-- A guarded turn of an authenticated device. -/
def Admitted (unwritten : C → Prop) (steady : Prop) (policy : Except IoError Bytes)
    (before : SecurePeer R C) (turn : Turn R C) : Prop :=
  Guarded unwritten steady policy before turn ∧ turn.peer.authenticated.isSome = true

variable {unwritten : C → Prop} {steady : Prop} {policy : Except IoError Bytes}
  {before : SecurePeer R C}

/-- The connection may change as long as it writes no application data. -/
lemma Guarded.connection {turn : Turn R C} (h : Guarded unwritten steady policy before turn)
    {connection : C} (hkeeps : unwritten turn.peer.connection → unwritten connection)
    (hstays : steady → ∀ certificates, Finished certificates turn.peer.connection →
      Finished certificates connection) :
    Guarded unwritten steady policy before
      { turn with peer := { turn.peer with connection := connection } } where
  sameMembership := h.sameMembership
  sameExpected := h.sameExpected
  quiet hnone := ⟨(h.quiet hnone).1, hkeeps (h.quiet hnone).2⟩
  cleared := h.cleared
  stays := h.stays
  presented hsteady device hdevice := (h.presented hsteady device hdevice).mono (hstays hsteady)
  output := h.output

/-- What an admitted turn does to the session is up to it, and to the connection as well where its
certificates stay. -/
lemma Admitted.congr {turn turn' : Turn R C}
    (h : Admitted unwritten steady policy before turn)
    (hauthenticated : turn'.peer.authenticated = turn.peer.authenticated)
    (hmembership : turn'.peer.membership = turn.peer.membership)
    (hexpected : turn'.peer.expected = turn.peer.expected)
    (hstays : steady → ∀ certificates, Finished certificates turn.peer.connection →
      Finished certificates turn'.peer.connection)
    (houtput : turn'.output.length ≤ maxBridgeOutput) :
    Admitted unwritten steady policy before turn' := by
  obtain ⟨hguarded, hsome⟩ := h
  rw [← hauthenticated] at hsome
  refine ⟨⟨hmembership.trans hguarded.sameMembership, hexpected.trans hguarded.sameExpected,
    fun hnone => ?_, fun device hdevice => ?_,
    fun device hdevice => hauthenticated.trans (hguarded.stays device hdevice),
    fun hsteady device hdevice => ?_, houtput⟩, hsome⟩
  · rw [hnone] at hsome
    cases hsome
  · rw [hauthenticated] at hdevice
    exact hguarded.cleared device hdevice
  · rw [hauthenticated] at hdevice
    exact (hguarded.presented hsteady device hdevice).mono (hstays hsteady)

namespace Turn

/-- A call of the TLS library that writes no application data. -/
lemma guarded_onTls {ε α : Type} {m : Fallible ε C α} (hm : Preserves unwritten m)
    (hstays : steady → ∀ certificates, Preserves (Finished certificates) m)
    (wrap : ε → PeerError) :
    Preserves (Guarded unwritten steady policy before)
      (onTls (R := R) wrap m) := by
  intro turn h
  have hcall := hm turn.peer.connection
  have hshown := fun hsteady certificates => hstays hsteady certificates turn.peer.connection
  unfold onTls
  unfold wp at hcall hshown ⊢
  rw [exec_of]
  cases hrun : m.exec turn.peer.connection with
  | mk result connection =>
    rw [hrun] at hcall hshown
    cases result with
    | ok => exact h.connection hcall hshown
    | error => exact h.connection hcall hshown

/-- Any call of the TLS library, for an authenticated device. -/
lemma admitted_onTls {ε α : Type} {m : Fallible ε C α}
    (hstays : steady → ∀ certificates, Preserves (Finished certificates) m) (wrap : ε → PeerError) :
    Preserves (Admitted unwritten steady policy before)
      (onTls (R := R) wrap m) := by
  intro turn h
  have hshown := fun hsteady certificates => hstays hsteady certificates turn.peer.connection
  unfold onTls
  unfold wp at hshown ⊢
  rw [exec_of]
  cases hrun : m.exec turn.peer.connection with
  | mk result connection =>
    rw [hrun] at hshown
    cases result with
    | ok => exact h.congr rfl rfl rfl hshown h.1.output
    | error => exact h.congr rfl rfl rfl hshown h.1.output

/-- Any call of the session, for an authenticated device. -/
lemma admitted_onSession {α : Type} (m : Fallible IoError (Session R) α) :
    Preserves (Admitted unwritten steady policy before)
      (onSession (C := C) m) := by
  intro turn h
  unfold onSession wp
  rw [exec_of]
  cases hrun : m.exec turn.peer.session with
  | mk result session' =>
    cases result with
    | ok => exact h.congr rfl rfl rfl (fun _ _ hfinished => hfinished) h.1.output
    | error => exact h.congr rfl rfl rfl (fun _ _ hfinished => hfinished) h.1.output

lemma admitted_onDecoder {α : Type} (m : Fallible IoError FrameDecoder α) :
    Preserves (Admitted unwritten steady policy before)
      (onDecoder (R := R) (C := C) m) := by
  intro turn h
  unfold onDecoder wp
  rw [exec_of]
  cases hrun : m.exec turn.peer.decoder with
  | mk result decoder =>
    cases result with
    | ok => exact h.congr rfl rfl rfl (fun _ _ hfinished => hfinished) h.1.output
    | error => exact h.congr rfl rfl rfl (fun _ _ hfinished => hfinished) h.1.output

section Output

variable {inv : Turn R C → Prop}

omit [Credentials] [Tls C] in
/-- Output that stays within its limit. -/
lemma preserves_emit (hinv : ∀ turn output, inv turn → output.length ≤ maxBridgeOutput →
    inv { turn with output := output }) (bytes : Bytes) : Preserves inv (emit bytes) := by
  intro turn h
  unfold emit
  rw [wp_bind, wp_get, wp_guard, wp_guard]
  refine ⟨fun _ => h, fun _ => ⟨fun _ => h, fun hfits => ?_⟩⟩
  exact hinv turn _ h (by omega)

omit [Credentials] in
lemma preserves_drain (hinv : ∀ turn output, inv turn → output.length ≤ maxBridgeOutput →
    inv { turn with output := output })
    (hwrite : Preserves inv (onTls PeerError.io (Tls.writeTls (C := C)))) (fuel : ℕ) :
    Preserves inv (drain fuel) := by
  induction fuel with
  | zero => exact preserves_throw _
  | succ fuel ih =>
    refine preserves_get_bind fun turn => Preserves.ite (fun _ => ?_) fun _ => preserves_pure _
    exact hwrite.bind fun bytes => (preserves_emit hinv bytes).bind fun _ => ih

end Output

lemma guarded_drain (hkeeps : Keeping unwritten) (hsteady : steady → Steady C) (fuel : ℕ) :
    Preserves (Guarded unwritten steady policy before)
      (drain (R := R) (C := C) fuel) :=
  preserves_drain (fun _ _ h hfits => { h with output := hfits })
    (guarded_onTls hkeeps.writeTls (fun h => (hsteady h).writeTls) _) fuel

lemma admitted_send (hsteady : steady → Steady C) (message : Message) :
    Preserves (Admitted unwritten steady policy before)
      (send (R := R) (C := C) message) := by
  unfold send
  -- an admitted device may have application data written for it
  refine (preserves_lift _).bind fun frame =>
    (admitted_onTls (fun h certificates => (hsteady h).writeAll certificates frame) _).bind
      fun _ => ?_
  exact preserves_drain
    (fun _ _ h hfits => h.congr rfl rfl rfl (fun _ _ hfinished => hfinished) hfits)
    (admitted_onTls (fun h => (hsteady h).writeTls) _) _

/-- The device that a peer has presented is approved, with exactly the certificate presented. -/
lemma approved_of_presented {turn : Turn R C} {device : PublicDevice}
    (h : turn.presented policy = .ok device) :
    ∃ der, Tls.peerCertificates turn.peer.connection = some [der]
      ∧ certificateDer device.certificate = .ok der
      ∧ turn.peer.membership.require policy der = .ok device := by
  unfold presented at h
  cases hcertificates : Tls.peerCertificates turn.peer.connection with
  | none =>
    rw [hcertificates] at h
    cases h
  | some certificates =>
    rw [hcertificates] at h
    cases certificates with
    | nil => cases h
    | cons certificate rest =>
      cases rest with
      | nil => exact ⟨certificate, rfl, certificate_of_require h, h⟩
      | cons other rest => cases h

variable [ReplicationStorage R]

/-- A device is authenticated only if the policy file approves it and it is the expected one. -/
lemma guarded_authenticate (hsteady : steady → Steady C) :
    Preserves (Guarded unwritten steady policy before)
      (authenticate (R := R) (C := C) policy) := by
  intro turn h
  unfold authenticate
  rw [wp_bind, wp_get, wp_ite]
  refine ⟨fun _ => h, fun hnot => ?_⟩
  rw [wp_guard]
  refine ⟨fun _ => h, fun _ => ?_⟩
  rw [wp_bind, wp_lift]
  refine ⟨fun device hdevice => ?_, fun _ _ => h⟩
  rw [wp_guard]
  refine ⟨fun _ => h, fun hexpects => ?_⟩
  rw [wp_bind, wp_set]
  obtain ⟨der, hshown, hder, hrequire⟩ := approved_of_presented hdevice
  -- the checks passed against what the peer had before the turn
  have happroved : Approved policy before.membership before.expected device := by
    refine ⟨⟨der, device, hder, h.sameMembership ▸ hrequire⟩, fun fingerprint hfingerprint => ?_⟩
    rw [h.sameExpected, hfingerprint] at hexpects
    simpa using hexpects
  have hadmitted : Admitted unwritten steady policy before
      { turn with peer := { turn.peer with authenticated := some device } } := by
    refine ⟨⟨h.sameMembership, h.sameExpected, fun hnone => ?_, fun other hother => ?_,
      fun known hknown => ?_, fun _ other hother => ?_, h.output⟩, rfl⟩
    · cases hnone
    · cases hother
      exact happroved
    · -- no device was authenticated so far
      have hsome : turn.peer.authenticated.isSome = true := by
        rw [h.stays known hknown]
        rfl
      exact absurd (.inl hsome) hnot
    · cases hother
      have hdone : Tls.isHandshaking turn.peer.connection = false := by
        cases hhandshaking : Tls.isHandshaking turn.peer.connection with
        | false => rfl
        | true => exact absurd (.inr hhandshaking) hnot
      exact ⟨der, ⟨hdone, hshown⟩, hder⟩
  apply wp_mono (admitted_send hsteady _ _ hadmitted)
  · exact fun _ _ hturn => hturn.1
  · exact fun _ _ hturn => hturn.1

lemma admitted_takeMessage (hsteady : steady → Steady C) (message : Message) :
    Preserves (Admitted unwritten steady policy before)
      (takeMessage (R := R) (C := C) message) := by
  unfold takeMessage
  refine (preserves_modify fun turn h =>
    h.congr rfl rfl rfl (fun _ _ hfinished => hfinished) h.1.output).bind fun _ => ?_
  refine preserves_get_bind fun turn => Preserves.guard fun _ => ?_
  exact (admitted_onSession _).bind fun replies => preserves_forM (admitted_send hsteady) replies

omit [ReplicationStorage R] in
lemma guarded_readPlaintext (hkeeps : Keeping unwritten) (hsteady : steady → Steady C) :
    Preserves (Guarded unwritten steady policy before)
      (readPlaintext (R := R) (C := C)) := by
  intro turn h
  have hcall := hkeeps.read (16 * 1024) turn.peer.connection
  have hshown := fun h certificates =>
    (hsteady h).read certificates (16 * 1024) turn.peer.connection
  unfold readPlaintext
  unfold wp at hcall hshown ⊢
  rw [exec_of]
  cases hrun : (Tls.read (C := C) (16 * 1024)).exec turn.peer.connection with
  | mk result connection =>
    rw [hrun] at hcall hshown
    have hkept : Guarded unwritten steady policy before
        { turn with peer := { turn.peer with connection := connection } } := by
      cases result with
      | ok => exact h.connection hcall hshown
      | error => exact h.connection hcall hshown
    dsimp only
    cases plaintextOf result with
    | ok bytes => exact hkept
    | error error => exact hkept

variable [PostcardReader]

/-- Application data is only taken in after the device is authenticated. -/
lemma guarded_plaintext (hkeeps : Keeping unwritten) (hsteady : steady → Steady C) (fuel : ℕ) :
    Preserves (Guarded unwritten steady policy before)
      (plaintext (R := R) (C := C) fuel) := by
  induction fuel with
  | zero => exact preserves_throw _
  | succ fuel ih =>
    unfold plaintext
    refine (guarded_readPlaintext hkeeps hsteady).bind fun bytes =>
      Preserves.ite (fun _ => preserves_pure _) fun _ => ?_
    -- plaintext of a device that is not authenticated is an error
    intro turn h
    rw [wp_bind, wp_get, wp_guard]
    refine ⟨fun _ => h, fun hsome => ?_⟩
    have hadmitted : Admitted unwritten steady policy before turn := by
      refine ⟨h, ?_⟩
      cases hauthenticated : turn.peer.authenticated with
      | none => exact absurd (by rw [hauthenticated]; rfl) hsome
      | some device => rfl
    rw [wp_guard]
    refine ⟨fun _ => h, fun _ => ?_⟩
    rw [wp_bind]
    apply wp_mono (admitted_onDecoder _ _ hadmitted)
    · intro messages next hnext
      rw [wp_bind]
      apply wp_mono (preserves_forM (admitted_takeMessage hsteady) messages _ hnext)
      · exact fun _ _ hlast => ih _ hlast.1
      · exact fun _ _ hlast => hlast.1
    · exact fun _ _ hnext => hnext.1

lemma guarded_takeInput (hkeeps : Keeping unwritten) (hsteady : steady → Steady C)
    (reads fuel : ℕ) (input : Bytes) :
    Preserves (Guarded unwritten steady policy before)
      (takeInput (R := R) (C := C) policy reads fuel input) := by
  induction fuel generalizing input with
  | zero => exact preserves_pure _
  | succ fuel ih =>
    unfold takeInput
    refine Preserves.ite (fun _ => preserves_pure _) fun _ => ?_
    refine (guarded_onTls (hkeeps.readTls input)
      (fun h certificates => (hsteady h).readTls certificates input) _).bind fun count =>
        Preserves.guard fun _ => ?_
    refine (guarded_onTls hkeeps.processNewPackets
      (fun h => (hsteady h).processNewPackets) _).bind fun closed => Preserves.guard fun _ => ?_
    -- the device is authenticated before its plaintext is read
    refine (guarded_authenticate hsteady).bind fun _ =>
      (guarded_plaintext hkeeps hsteady reads).bind fun _ => ?_
    exact (guarded_drain hkeeps hsteady _).bind fun _ => ih _

omit [PostcardReader] in
lemma guarded_tick (hsteady : steady → Steady C) (ticks : Bool) :
    Preserves (Guarded unwritten steady policy before)
      (tick (R := R) (C := C) ticks) := by
  intro turn h
  unfold tick
  rw [wp_bind, wp_get, wp_ite]
  -- only an authenticated device is ticked
  refine ⟨fun hready => ?_, fun _ => h⟩
  have hadmitted : Admitted unwritten steady policy before turn := ⟨h, hready.2⟩
  have hsend : ∀ message, Preserves (Admitted unwritten steady policy before)
      (send (R := R) (C := C) message) := admitted_send hsteady
  have hrun := (admitted_onSession (C := C) Session.tick).bind fun replies =>
    preserves_forM hsend replies
  apply wp_mono (hrun turn hadmitted)
  · exact fun _ _ hlast => hlast.1
  · exact fun _ _ hlast => hlast.1

omit [Tls C] [ReplicationStorage R] [PostcardReader] in
/-- A device that was authenticated before is approved again before anything else happens. -/
lemma wp_recheck (turn : Turn R C) :
    wp (recheck (R := R) (C := C) policy)
      (fun _ t => t = turn ∧ ∀ device, turn.peer.authenticated = some device →
        ∃ der approved, certificateDer device.certificate = .ok der
          ∧ turn.peer.membership.require policy der = .ok approved)
      (fun _ t => t = turn) turn := by
  unfold recheck
  rw [wp_bind, wp_get]
  cases hauthenticated : turn.peer.authenticated with
  | none => exact ⟨rfl, fun device hdevice => by cases hdevice⟩
  | some device =>
    dsimp only
    rw [wp_bind, wp_lift]
    refine ⟨fun der hder => ?_, fun _ _ => rfl⟩
    rw [wp_bind, wp_lift]
    refine ⟨fun approved happroved => ⟨rfl, fun other hother => ?_⟩, fun _ _ => rfl⟩
    cases hother
    exact ⟨der, approved, hder, happroved⟩

/-- A turn fails before it does anything, or it is guarded. -/
lemma wp_process (hkeeps : Keeping unwritten) (hsteady : steady → Steady C)
    (hquiet : before.authenticated = none → unwritten before.connection)
    (hpinned : ∀ device, before.authenticated = some device →
      ∀ fingerprint ∈ before.expected, fingerprint = device.fingerprint)
    (hpresents : steady → ∀ device, before.authenticated = some device →
      Presents before.connection device)
    (policy : Except IoError Bytes) (bytes : Bytes) (ticks : Bool) (reads : ℕ) :
    wp (process (R := R) (C := C) policy bytes ticks reads)
      (fun output t => Guarded unwritten steady policy before t ∧ output.length ≤ maxBridgeOutput)
      (fun _ t => t.peer = before ∨ Guarded unwritten steady policy before t)
      { peer := before } := by
  unfold process
  rw [wp_guard]
  refine ⟨fun _ => .inl rfl, fun _ => ?_⟩
  rw [wp_bind]
  apply wp_mono (wp_recheck { peer := before })
  · rintro - turn ⟨rfl, hchecked⟩
    -- the guard holds at the start, since the device was checked again
    have hguarded : Guarded unwritten steady policy before { peer := before } :=
      { sameMembership := rfl
        sameExpected := rfl
        quiet := fun hnone => ⟨rfl, hquiet hnone⟩
        cleared := fun device hdevice => ⟨hchecked device hdevice, hpinned device hdevice⟩
        stays := fun _ hdevice => hdevice
        presented := hpresents
        output := Nat.zero_le _ }
    have hfails : ∀ (error : PeerError) (t : Turn R C), Guarded unwritten steady policy before t →
        t.peer = before ∨ Guarded unwritten steady policy before t := fun _ _ ht => .inr ht
    rw [wp_bind]
    refine wp_mono (guarded_takeInput hkeeps hsteady reads bytes.length bytes _ hguarded) ?_ hfails
    intro _ turn hturn
    rw [wp_bind]
    refine wp_mono (guarded_tick hsteady ticks turn hturn) ?_ hfails
    intro _ turn hturn
    rw [wp_bind]
    refine wp_mono (guarded_drain hkeeps hsteady _ turn hturn) ?_ hfails
    intro _ turn hturn
    exact ⟨hturn, hturn.output⟩
  · rintro - turn rfl
    exact .inl rfl

end Turn

/-! ## Over all turns -/

/-- The event writes no application data on its own. -/
def SecurePeer.Event.Keeps (unwritten : C → Prop) : SecurePeer.Event R C → Prop
  | .close f | .finish f => ∀ connection, unwritten connection → unwritten (f connection)
  | .turn .. | .change _ => True

/-- The event leaves the certificates of a finished handshake as they are. -/
def SecurePeer.Event.Steady : SecurePeer.Event R C → Prop
  | .close f | .finish f => ∀ certificates connection, Finished certificates connection →
      Finished certificates (f connection)
  | .turn .. | .change _ => True

variable [ReplicationStorage R] [PostcardReader]

/-- A peer between turns: without an authenticated device the session is new and no application
data was written, and an authenticated device is the expected one. -/
structure Settled (unwritten : C → Prop) (steady : Prop) (membership : Membership)
    (expected : Option String) (peer : SecurePeer R C) : Prop where
  sameMembership : peer.membership = membership
  sameExpected : peer.expected = expected
  quiet : peer.authenticated = none →
    (∃ replica, peer.session = Session.new replica) ∧ unwritten peer.connection
  pinned : ∀ device, peer.authenticated = some device →
    ∀ fingerprint ∈ expected, fingerprint = device.fingerprint
  presented : steady → ∀ device, peer.authenticated = some device →
    Presents peer.connection device

section Settled

variable {membership : Membership} {expected : Option String} {peer : SecurePeer R C}

/-- What a turn does: it is refused or fails before it does anything, or it is guarded. -/
lemma Settled.turn (hkeeps : Keeping unwritten) (hsteady : steady → Steady C)
    (h : Settled unwritten steady membership expected peer)
    (policy : Except IoError Bytes) (bytes : Bytes) (ticks : Bool) (reads : ℕ) :
    ∃ result peer', (SecurePeer.turn policy bytes ticks reads).exec peer = (result, peer')
      ∧ (∀ output, result = .ok output → output.length ≤ maxBridgeOutput)
      ∧ (peer' = { peer with failed := true } ∧ result.isOk = false
        ∨ ∃ turn, Guarded unwritten steady policy peer turn
          ∧ peer' = { turn.peer with failed := !result.isOk }) := by
  cases hfailed : peer.failed with
  | true =>
    -- a failed peer refuses the turn
    refine ⟨.error (.io (invalid "peer connection is closed")), peer, ?_, ?_, .inl ⟨?_, rfl⟩⟩
    · unfold SecurePeer.turn
      rw [exec_of, if_pos hfailed]
    · intro output houtput
      cases houtput
    · rw [← hfailed]
  | false =>
    have hpinned : ∀ device, peer.authenticated = some device →
        ∀ fingerprint ∈ peer.expected, fingerprint = device.fingerprint := by
      rw [h.sameExpected]
      exact h.pinned
    have hprocess := Turn.wp_process hkeeps hsteady (fun hnone => (h.quiet hnone).2) hpinned
      h.presented policy bytes ticks reads
    unfold SecurePeer.turn
    rw [exec_of, if_neg (by simp [hfailed])]
    unfold wp at hprocess
    cases hrun : (Turn.process policy bytes ticks reads).exec { peer := peer } with
    | mk result turn =>
      rw [hrun] at hprocess
      cases result with
      | ok output =>
        refine ⟨_, _, rfl, fun other hother => ?_, .inr ⟨turn, hprocess.1, rfl⟩⟩
        cases hother
        exact hprocess.2
      | error error =>
        refine ⟨_, _, rfl, (fun other hother => by cases hother), ?_⟩
        rcases hprocess with hsame | hguarded
        · refine .inl ⟨?_, rfl⟩
          show { turn.peer with failed := true } = _
          rw [hsame]
        · exact .inr ⟨turn, hguarded, rfl⟩

lemma Settled.step (hkeeps : Keeping unwritten) (hsteady : steady → Steady C)
    (h : Settled unwritten steady membership expected peer) (event : SecurePeer.Event R C)
    (hevent : event.Keeps unwritten) (hsame : steady → event.Steady) :
    Settled unwritten steady membership expected (peer.step event) := by
  cases event with
  | turn policy bytes ticks reads =>
    obtain ⟨result, peer', hrun, -, hcases⟩ := h.turn hkeeps hsteady policy bytes ticks reads
    have hstep : peer.step (.turn policy bytes ticks reads) = peer' := by
      show ((SecurePeer.turn policy bytes ticks reads).exec peer).2 = peer'
      rw [hrun]
    rw [hstep]
    obtain ⟨rfl, -⟩ | ⟨turn, hguarded, rfl⟩ := hcases
    · exact ⟨h.sameMembership, h.sameExpected, h.quiet, h.pinned, h.presented⟩
    · refine ⟨hguarded.sameMembership.trans h.sameMembership,
        hguarded.sameExpected.trans h.sameExpected, fun hnone => ?_, fun device hdevice => ?_,
        hguarded.presented⟩
      · -- nothing was authenticated before the turn either
        have hbefore : peer.authenticated = none := by
          cases hauthenticated : peer.authenticated with
          | none => rfl
          | some device =>
            have hsome := hguarded.stays device hauthenticated
            rw [show turn.peer.authenticated = none from hnone] at hsome
            cases hsome
        obtain ⟨hsession, hunwritten⟩ := hguarded.quiet hnone
        refine ⟨?_, hunwritten⟩
        show ∃ replica, turn.peer.session = _
        rw [hsession]
        exact (h.quiet hbefore).1
      · have happroved := (hguarded.cleared device hdevice).2
        rwa [h.sameExpected] at happroved
  | close f =>
    exact ⟨h.sameMembership, h.sameExpected,
      fun hnone => ⟨(h.quiet hnone).1, hevent _ (h.quiet hnone).2⟩, h.pinned,
      fun hon device hdevice => (h.presented hon device hdevice).mono fun certificates =>
        hsame hon certificates _⟩
  | finish f =>
    exact ⟨h.sameMembership, h.sameExpected,
      fun hnone => ⟨(h.quiet hnone).1, hevent _ (h.quiet hnone).2⟩, h.pinned,
      fun hon device hdevice => (h.presented hon device hdevice).mono fun certificates =>
        hsame hon certificates _⟩
  | change f =>
    refine ⟨h.sameMembership, h.sameExpected, fun hnone => ?_, h.pinned, h.presented⟩
    obtain ⟨⟨replica, hsession⟩, hunwritten⟩ := h.quiet hnone
    refine ⟨⟨f replica, ?_⟩, hunwritten⟩
    show { peer.session with replica := f peer.session.replica } = _
    rw [hsession]
    rfl

lemma Settled.run (hkeeps : Keeping unwritten) (hsteady : steady → Steady C)
    (h : Settled unwritten steady membership expected peer) (events : List (SecurePeer.Event R C))
    (hevents : ∀ event ∈ events, event.Keeps unwritten)
    (hsame : steady → ∀ event ∈ events, event.Steady) :
    Settled unwritten steady membership expected (peer.run events) := by
  induction events generalizing peer with
  | nil => exact h
  | cons event events ih =>
    exact ih (h.step hkeeps hsteady event (hevents event List.mem_cons_self)
        fun hon => hsame hon event List.mem_cons_self)
      (fun other hother => hevents other (List.mem_cons_of_mem _ hother))
      fun hon other hother => hsame hon other (List.mem_cons_of_mem _ hother)

end Settled

/-- A failed peer stays failed, and its session gets nothing more to do. -/
lemma run_failed {peer : SecurePeer R C} (hfailed : peer.failed = true)
    (events : List (SecurePeer.Event R C)) :
    (peer.run events).failed = true
      ∧ ∃ replica, (peer.run events).session = { peer.session with replica := replica } := by
  induction events generalizing peer with
  | nil => exact ⟨hfailed, peer.session.replica, rfl⟩
  | cons event events ih =>
    have hstep : (peer.step event).failed = true
        ∧ ∃ replica, (peer.step event).session = { peer.session with replica := replica } := by
      cases event with
      | turn policy bytes ticks reads =>
        have hrun : (SecurePeer.turn policy bytes ticks reads).exec peer
            = (.error (.io (invalid "peer connection is closed")), peer) := by
          unfold SecurePeer.turn
          rw [exec_of, if_pos hfailed]
        show ((SecurePeer.turn policy bytes ticks reads).exec peer).2.failed = true
          ∧ ∃ replica, ((SecurePeer.turn policy bytes ticks reads).exec peer).2.session = _
        rw [hrun]
        exact ⟨hfailed, peer.session.replica, rfl⟩
      | close f => exact ⟨rfl, peer.session.replica, rfl⟩
      | finish f => exact ⟨hfailed, peer.session.replica, rfl⟩
      | change f => exact ⟨hfailed, f peer.session.replica, rfl⟩
    obtain ⟨hfailed', replica, hsession⟩ := hstep
    obtain ⟨hlast, replica', hsession'⟩ := ih hfailed'
    refine ⟨hlast, replica', ?_⟩
    show ((peer.step event).run events).session = _
    rw [hsession', hsession]

/-- Whatever a TLS library that keeps its application data apart does, whatever the peer sends and
however the policy file changes between turns: before a device is authenticated the session is new
and no application data was written; a turn works on the session only if the policy file approves
the authenticated device at the time, with its exact certificate, and it is the device that the
client expects; a turn of a device that is no longer approved does nothing but fail; a failed peer
never works on its session again; and a turn's output is bounded. Where the certificates of a
finished handshake stay what they are, the authenticated device is the one whose certificate the
peer presents. -/
theorem exchange_requires_approval {unwritten : C → Prop} (hkeeps : Keeping unwritten)
    {connection : C} (hfresh : unwritten connection) (membership : Membership) (replica : R)
    (expected : Option String) (events : List (SecurePeer.Event R C))
    (hevents : ∀ event ∈ events, event.Keeps unwritten) (policy : Except IoError Bytes)
    (bytes : Bytes) (ticks : Bool) (reads : ℕ) :
    let peer := (SecurePeer.new connection membership replica expected).run events
    let run := (SecurePeer.turn policy bytes ticks reads).exec peer
    (peer.authenticated = none →
        (∃ replica, peer.session = Session.new replica) ∧ unwritten peer.connection)
      ∧ (run.2.session = peer.session ∨ ∃ device, run.2.authenticated = some device
        ∧ Approved policy membership expected device)
      ∧ (∀ device, peer.authenticated = some device → ¬ Approved policy membership expected device →
        run.1.isOk = false ∧ run.2 = { peer with failed := true })
      ∧ (peer.failed = true → ∀ later, (peer.run later).failed = true
        ∧ ∃ replica, (peer.run later).session = { peer.session with replica := replica })
      ∧ (∀ output, run.1 = .ok output → output.length ≤ maxBridgeOutput)
      ∧ (Steady C → (∀ event ∈ events, event.Steady) → ∀ device,
        run.2.authenticated = some device → Presents run.2.connection device) := by
  intro peer run
  have hnew : Settled unwritten (Steady C ∧ ∀ event ∈ events, event.Steady) membership expected
      (SecurePeer.new connection membership replica expected) :=
    ⟨rfl, rfl, fun _ => ⟨⟨replica, rfl⟩, hfresh⟩, (fun device hdevice => by cases hdevice),
      fun _ device hdevice => by cases hdevice⟩
  have hsettled := hnew.run hkeeps And.left events hevents And.right
  obtain ⟨result, peer', hrun, hbound, hcases⟩ :=
    hsettled.turn hkeeps And.left policy bytes ticks reads
  have hresult : run = (result, peer') := hrun
  rw [hresult]
  refine ⟨hsettled.quiet, ?_, fun device hdevice hrevoked => ?_,
    fun hfailed later => run_failed hfailed later, hbound, fun hsteady hsame device hdevice => ?_⟩
  · obtain ⟨rfl, -⟩ | ⟨turn, hguarded, rfl⟩ := hcases
    · exact .inl rfl
    · cases hauthenticated : turn.peer.authenticated with
      | none => exact .inl (hguarded.quiet hauthenticated).1
      | some device =>
        have happroved := hguarded.cleared device hauthenticated
        rw [hsettled.sameMembership, hsettled.sameExpected] at happroved
        exact .inr ⟨device, rfl, happroved⟩
  · -- a turn that did anything has approved the device again
    obtain ⟨rfl, hnot⟩ | ⟨turn, hguarded, rfl⟩ := hcases
    · exact ⟨hnot, rfl⟩
    · have happroved := hguarded.cleared device (hguarded.stays device hdevice)
      rw [hsettled.sameMembership, hsettled.sameExpected] at happroved
      exact absurd happroved hrevoked
  · obtain ⟨rfl, -⟩ | ⟨turn, hguarded, rfl⟩ := hcases
    · exact hsettled.presented ⟨hsteady, hsame⟩ device hdevice
    · exact hguarded.presented ⟨hsteady, hsame⟩ device hdevice

end EditChain.Sync.Secure

/-! ## A device that is revoked -/

namespace EditChain.Sync.Secure

open Core Fallible

section Witness

local instance admittedSchema : Schema OpId := messageSchema
local instance admittedDigests : Blake3 := messageDigests
local instance admittedStorage : ReplicationStorage Stream.Revoked := Stream.revokedStorage
local instance admittedReader : PostcardReader := Stream.helloReader

/-- A connection whose handshake is done with the first bytes that arrive, the certificate of the
peer. -/
structure Handshake where
  certificate : Option Bytes := none
  received : Bytes := []
  written : Bytes := []
  outgoing : Bytes := []

/-- The connection after it has taken in some bytes. -/
def Handshake.taking (input : Bytes) (c : Handshake) : Handshake :=
  if c.certificate.isNone then { c with certificate := some input }
  else { c with received := c.received ++ input }

local instance handshakeTls : Tls Handshake where
  readTls input := of fun c => (.ok input.length, c.taking input)
  processNewPackets := pure false
  isHandshaking c := c.certificate.isNone
  isTls13 _ := true
  alpnProtocol _ := some alpn
  peerCertificates c := c.certificate.map fun certificate => [certificate]
  read n := of fun c =>
    (if c.received = [] then .error ⟨.wouldBlock, "would block"⟩ else .ok (c.received.take n),
      { c with received := c.received.drop n })
  writeAll bytes := modify fun c =>
    { c with written := c.written ++ bytes, outgoing := c.outgoing ++ bytes }
  wantsWrite c := c.outgoing ≠ []
  writeTls := of fun c => (.ok c.outgoing, { c with outgoing := [] })

lemma handshake_keeping : Keeping fun c : Handshake => c.written = [] where
  readTls input c h := by
    show (c.taking input).written = []
    unfold Handshake.taking
    split
    · exact h
    · exact h
  processNewPackets c h := h
  read n c h := by
    show wp (of _) _ _ c
    unfold wp
    rw [exec_of]
    by_cases hreceived : c.received = []
    · rw [if_pos hreceived]
      exact h
    · rw [if_neg hreceived]
      exact h
  writeTls c h := h

lemma handshake_steady : Steady Handshake where
  readTls certificates input c h := by
    show Finished certificates (c.taking input)
    obtain ⟨hdone, hcertificates⟩ := h
    unfold Handshake.taking
    have hnot : ¬ c.certificate.isNone = true := fun hnone => by
      rw [show c.certificate.isNone = false from hdone] at hnone
      cases hnone
    rw [if_neg hnot]
    exact ⟨hdone, hcertificates⟩
  processNewPackets certificates c h := h
  read certificates n c h := by
    show wp (of _) _ _ c
    unfold wp
    rw [exec_of]
    by_cases hreceived : c.received = []
    · rw [if_pos hreceived]
      exact h
    · rw [if_neg hreceived]
      exact h
  writeAll certificates bytes c h := h
  writeTls certificates c h := h

/-- The device with the certificate `[1]`. -/
def approvedDevice : PublicDevice :=
  ⟨"AQ==", "48fc721fbbc172e0925fa27af1671de225ba927134802998b10a1568a188652b"⟩

local instance oneDevice : Credentials where
  decode text := if text = "AQ==" then some [1] else none
  fingerprint certificate := if certificate = [1] then approvedDevice.fingerprint else ""
  members bytes :=
    if bytes = [1] then some ⟨1, "chain", (∅ : Std.ExtTreeMap String PublicDevice).insert
      approvedDevice.fingerprint approvedDevice⟩
    else if bytes = [0] then some ⟨1, "chain", ∅⟩
    else none

/-- The peer after a turn in which the policy file approved its device. -/
def admittedPeer : SecurePeer Stream.Revoked Handshake :=
  (SecurePeer.new {} ⟨"chain"⟩ {} none).run [.turn (.ok [1]) [1] false 1]

/-- The device of the certificate that was presented is authenticated, and once the policy file does
not approve it any more, a turn fails. -/
theorem exchange_requires_approval_revoked :
    admittedPeer.authenticated = some approvedDevice
      ∧ Presents ((SecurePeer.turn (.ok [0]) [] true 1).exec admittedPeer).2.connection
        approvedDevice
      ∧ ((SecurePeer.turn (.ok [0]) [] true 1).exec admittedPeer).1.isOk = false := by
  have hadmitted : admittedPeer.authenticated = some approvedDevice := by decide +kernel
  have hrevoked : ¬ Approved (.ok [0]) ⟨"chain"⟩ none approvedDevice := by
    rintro ⟨⟨der, approved, hder, hrequire⟩, -⟩
    have hone : certificateDer approvedDevice.certificate = .ok [1] := rfl
    rw [hone] at hder
    cases hder
    have hnone : (Membership.mk "chain").require (.ok [0]) [1]
        = .error (.authentication "device is not approved for this space") := rfl
    rw [hnone] at hrequire
    cases hrequire
  have hturn := exchange_requires_approval handshake_keeping
    (show ({} : Handshake).written = [] from rfl) ⟨"chain"⟩ ({} : Stream.Revoked) none
    [.turn (.ok [1]) [1] false 1]
    (fun event hevent => by
      rw [List.mem_singleton.mp hevent]
      trivial)
    (.ok [0]) [] true 1
  obtain ⟨hfailed, hpeer⟩ := hturn.2.2.1 approvedDevice hadmitted hrevoked
  have hstill : ((SecurePeer.turn (.ok [0]) [] true 1).exec admittedPeer).2.authenticated
      = some approvedDevice := by
    have hkept : ∀ peer : SecurePeer Stream.Revoked Handshake,
        ({ peer with failed := true } : SecurePeer Stream.Revoked Handshake).authenticated
          = peer.authenticated := fun _ => rfl
    rw [show ((SecurePeer.turn (.ok [0]) [] true 1).exec admittedPeer).2
      = { admittedPeer with failed := true } from hpeer]
    exact (hkept admittedPeer).trans hadmitted
  refine ⟨hadmitted, hturn.2.2.2.2.2 handshake_steady (fun event hevent => ?_) approvedDevice
    hstill, hfailed⟩
  rw [List.mem_singleton.mp hevent]
  trivial

end Witness
end EditChain.Sync.Secure
