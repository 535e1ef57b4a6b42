import EditChain.Sync.Decoder

/-!
# Approved devices

A replica owner's explicit device approvals, independent of discovery: a policy file that is read
again on every turn of a peer, and that names the exact certificates of the approved devices.
-/

namespace EditChain.Sync

open Core Fallible
open Std (ExtTreeMap)

/-- Maximum approved remote devices for the initial small-mesh implementation. -/
def maxDevices : ℕ := 32

/-- Public device identity exchanged through a trusted invitation channel. -/
structure PublicDevice where
  /-- Base64 DER certificate, without any private key material. -/
  certificate : String
  /-- Fingerprint of the exact certificate bytes. -/
  fingerprint : String
deriving DecidableEq, Repr

/-- An `io::Error` of a peer; `authentication_failed` is a permission error. -/
inductive PeerError where
  | io (error : IoError)
  | authentication (text : String)
  /-- `io::ErrorKind::ConnectionAborted` -/
  | aborted (text : String)
deriving DecidableEq, Repr

/-- The content of the policy file. -/
structure Members where
  version : ℕ
  space : String
  devices : ExtTreeMap String PublicDevice

/-- The libraries that read certificates and the policy file. -/
class Credentials where
  /-- `STANDARD.decode` of a base64 text. -/
  decode : String → Option Bytes
  /-- The displayed hash of a certificate. -/
  fingerprint : Bytes → String
  /-- `serde_json::from_slice` of the policy file. -/
  members : Bytes → Option Members

variable [Credentials]

/-- `certificate_der`: the bounded, non-empty bytes of a certificate. -/
def certificateDer (certificate : String) : Except PeerError Bytes := do
  if 8192 < certificate.utf8ByteSize then
    throw (.io (invalid "device certificate exceeds limit"))
  match Credentials.decode certificate with
  | none => throw (.io (invalid "invalid certificate encoding"))
  | some bytes =>
    if bytes = [] ∨ 4096 < bytes.length then
      throw (.io (invalid "device certificate exceeds limit"))
    return bytes

/-- Workspace-scoped local admission policy, read again on every peer turn. -/
structure Membership where
  space : String
deriving DecidableEq, Repr

namespace Membership

/-- The members that a read of the policy file gives. -/
def parse (membership : Membership) : Except IoError Bytes → Except PeerError Members
  | .ok bytes =>
    if 256 * 1024 < bytes.length then
      .error (.io (invalid "membership metadata exceeds limit"))
    else
      match Credentials.members bytes with
      | none => .error (.io (invalid "invalid membership metadata"))
      | some members => .ok members
  | .error error =>
    if error.kind = .notFound then .ok ⟨1, membership.space, ∅⟩ else .error (.io error)

/-- `load`, given what `fs::read` returns for the policy file. -/
def load (membership : Membership) (read : Except IoError Bytes) : Except PeerError Members := do
  let members ← membership.parse read
  if members.version ≠ 1 ∨ members.space ≠ membership.space ∨ maxDevices < members.devices.size then
    throw (.io (invalid "membership space or version mismatch"))
  return members

/-- Require a byte-exact, currently approved certificate. -/
def require (membership : Membership) (read : Except IoError Bytes) (certificate : Bytes) :
    Except PeerError PublicDevice := do
  let members ← membership.load read
  match members.devices[Credentials.fingerprint certificate]? with
  | none => throw (.authentication "device is not approved for this space")
  | some device =>
    let der ← certificateDer device.certificate
    if der ≠ certificate then throw (.io (invalid "device certificate pin mismatch"))
    return device

end Membership
end EditChain.Sync
