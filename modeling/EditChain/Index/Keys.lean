import EditChain.Activity.Fields
import EditChain.Index.State

/-!
# Factual secondary keys

What the index takes from a recorded operation: the references to content, the facts that operations
are selected by, and the identities of logical items and of old addresses. References to content are
kept in a map, which needs no particular order; here they have that of a number.
-/

namespace EditChain.Activity

/-- The address of some content as a number, and its tag. -/
def ContentId.code : ContentId → ℕ × ℕ
  | .ofLocal node seq => (2 ^ 64 * node.toNat + seq.toNat, 0)
  | .hash128 hash => (hash.toNat, 1)
  | .hash256 hash => (hash.toNat, 2)

/-- A reference as a number. -/
def ContentReference.code (reference : ContentReference) : ℕ :=
  2 ^ 33 * (3 * reference.id.code.1 + reference.id.code.2)
    + reference.len.elim 0 fun len => len.toNat + 1

lemma ContentId.code_injective : Function.Injective ContentId.code := by
  intro a b h
  cases a with
  | ofLocal node seq =>
    cases b with
    | ofLocal node' seq' =>
      have hnum : 2 ^ 64 * node.toNat + seq.toNat = 2 ^ 64 * node'.toNat + seq'.toNat :=
        congrArg Prod.fst h
      have hseq := seq.toNat_lt
      have hseq' := seq'.toNat_lt
      have hnode : node = node' := UInt64.toNat_inj.mp (by omega)
      have hsame : seq = seq' := UInt64.toNat_inj.mp (by omega)
      rw [hnode, hsame]
    | hash128 hash => cases congrArg Prod.snd h
    | hash256 hash => cases congrArg Prod.snd h
  | hash128 hash =>
    cases b with
    | ofLocal node seq => cases congrArg Prod.snd h
    | hash128 hash' => rw [BitVec.eq_of_toNat_eq (congrArg Prod.fst h)]
    | hash256 hash' => cases congrArg Prod.snd h
  | hash256 hash =>
    cases b with
    | ofLocal node seq => cases congrArg Prod.snd h
    | hash128 hash' => cases congrArg Prod.snd h
    | hash256 hash' => rw [BitVec.eq_of_toNat_eq (congrArg Prod.fst h)]

lemma ContentId.code_lt (id : ContentId) : id.code.2 < 3 := by
  cases id with
  | ofLocal node seq => exact (by decide : 0 < 3)
  | hash128 hash => exact (by decide : 1 < 3)
  | hash256 hash => exact (by decide : 2 < 3)

lemma ContentReference.code_injective : Function.Injective ContentReference.code := by
  intro a b h
  have hlen : ∀ len : Option UInt32, (len.elim 0 fun len => len.toNat + 1) < 2 ^ 33 := by
    intro len
    cases len with
    | none => exact (by decide : 0 < 2 ^ 33)
    | some len =>
      have hlt := len.toNat_lt
      show len.toNat + 1 < 2 ^ 33
      omega
  have ha := hlen a.len
  have hb := hlen b.len
  have htag := a.id.code_lt
  have htag' := b.id.code_lt
  unfold code at h
  have hid : a.id.code = b.id.code := Prod.ext (by omega) (by omega)
  have hsame : (a.len.elim 0 fun len => len.toNat + 1) = b.len.elim 0 fun len => len.toNat + 1 := by
    omega
  have heq : a.len = b.len := by
    cases hal : a.len with
    | none =>
      cases hbl : b.len with
      | none => rfl
      | some len =>
        rw [hal, hbl] at hsame
        cases hsame
    | some len =>
      cases hbl : b.len with
      | none =>
        rw [hal, hbl] at hsame
        cases hsame
      | some len' =>
        rw [hal, hbl] at hsame
        have hnat : len.toNat + 1 = len'.toNat + 1 := hsame
        rw [UInt32.toNat_inj.mp (Nat.succ.inj hnat)]
  obtain ⟨id, len⟩ := a
  obtain ⟨id', len'⟩ := b
  have hids : id = id' := ContentId.code_injective hid
  have hlens : len = len' := heq
  rw [hids, hlens]

instance instOrdContentReference : Ord ContentReference := ⟨compareOn ContentReference.code⟩

instance instTransOrdContentReference : Std.TransOrd ContentReference :=
  inferInstanceAs (Std.TransCmp (compareOn ContentReference.code))

instance instLawfulEqOrdContentReference : Std.LawfulEqOrd ContentReference where
  eq_of_compare {a b} h := by
    have hcodes : compareOn ContentReference.code a b = .eq := h
    unfold compareOn at hcodes
    exact ContentReference.code_injective (Std.LawfulEqOrd.eq_of_compare hcodes)

/-- The ten operation categories. -/
inductive KindName where
  | session
  | turn
  | message
  | tool
  | file
  | commit
  | note
  | author
  | link
  | original
deriving DecidableEq, Repr

/-- `name`. -/
def Kind.name : Kind → KindName
  | .session _ => .session
  | .turn _ => .turn
  | .message _ => .message
  | .tool _ => .tool
  | .file _ => .file
  | .commit _ _ => .commit
  | .note _ => .note
  | .author _ => .author
  | .link _ => .link
  | .original _ => .original

end EditChain.Activity

namespace EditChain.Index

open Activity (ContentId ContentReference ItemId KindName payloads)
open Migration (AddressHash OpKind)

/-- A recorded fact used to select accepted operation identities. -/
inductive IndexKey where
  /-- Schema-three logical item identity. -/
  | item (id : ItemId)
  /-- Session membership, including records that also name a turn. -/
  | sessionItem (id : ItemId)
  | turnItem (id : ItemId)
  | authorItem (id : ItemId)
  /-- Capturing integration identity. -/
  | recorder (id : ItemId)
  | kind (name : KindName)
  /-- Previous operation ID after an explicit physical conversion. -/
  | alias (id : OpId)
  /-- The envelope's author. -/
  | actor (id : UInt64)
  | chain (id : UInt64)
  /-- The envelope's session scope or a session registration identity. -/
  | session (id : UInt64)
  | turn (id : UInt64)
  /-- The envelope's file scope, a file operation path, or a Git changed path. -/
  | file (path : UInt64)
  /-- An envelope's causal parent. -/
  | parent (id : OpId)
  /-- A content address referenced by a supported record field. -/
  | content (id : ContentId)
deriving DecidableEq

/-- The key of the scope of an envelope. -/
def scopeKeys : Activity.ScopeRef → List IndexKey
  | .none => []
  | .chain id => [.chain id]
  | .session id => [.session id]
  | .turn id => [.turn id]
  | .file path => [.file path]

/-- The keys of a record of schema three. -/
def recordKeys (record : Activity.Operation) : List IndexKey :=
  [.item record.item, .kind record.kind.name, .recorder record.recorder]
  ++ record.session.toList.map IndexKey.sessionItem
  ++ record.turn.toList.map IndexKey.turnItem
  ++ record.author.toList.map IndexKey.authorItem
  ++ record.legacy.toList.map (fun legacy => IndexKey.alias legacy.operation)
  ++ record.legacy.toList.flatMap (fun legacy => legacy.folded.map IndexKey.alias)
  ++ (match record.kind with
    | .file file => [.file file.path]
    | .commit _ commit => commit.changedPaths.map IndexKey.file
    | _ => [])

section

variable [AddressHash]

/-- The keys that come from the kind of an operation. -/
def kindKeys : OpKind payloads OpId → List IndexKey
  | .activity record => recordKeys record
  | .plain (.file file) => [.file file.path]
  | .plain (.session id _ _ _) => [.session id]
  | .gitCommit _ commit => commit.changedPaths.map IndexKey.file
  | _ => []

/-- `keys`. -/
def keys (op : Migration.Op payloads) (references : List ContentReference) : List IndexKey :=
  [.actor op.context.actor] ++ op.parentIds.map IndexKey.parent
  ++ references.map (fun reference => IndexKey.content reference.id)
  ++ scopeKeys op.context.scope ++ kindKeys op.kind

/-- The item identities of `remember`. -/
def items (op : Migration.Op payloads) : List OpId :=
  match op.kind with
  | .activity record =>
    record.item.id :: (record.session.toList ++ record.turn.toList ++ record.author.toList).map
      ItemId.id
  | _ => []

/-- The old addresses of `remember`. -/
def aliases (op : Migration.Op payloads) : List OpId :=
  match op.kind with
  | .activity record =>
    record.legacy.toList.flatMap fun legacy => legacy.operation :: legacy.folded
  | _ => []

/-- What the index takes from recorded operations. -/
@[reducible] def recordedSchema :
    IndexSchema (Migration.Op payloads) ContentReference IndexKey where
  references := Activity.references
  keys := keys
  items := items
  aliases := aliases

end

end EditChain.Index
