import EditChain.Activity.Compatibility
import EditChain.Activity.WireTheorems

/-!
# The two conversions agree

`upgrade` maps the references of a record by its own match over kinds, and `map_operation_ids` by
another one over all places. A record that `view` makes has no reference in the places that only the
second one visits, so both give the same.
-/

namespace EditChain.Activity

open Migration (SourceId ParentSet AddressHash Op OpKind)

/-! ## Identities of a record -/

/-- The operation that an endpoint names. -/
def Entity.operationIds : Entity → List OpId
  | .operation id => [id]
  | .item _ | .git _ _ => []

/-- The item that an endpoint names. -/
def Entity.itemIds : Entity → List ItemId
  | .item id => [id]
  | .operation _ | .git _ _ => []

namespace Kind

/-- The operations that a kind names, place by place. -/
def operationIds : Kind → List OpId
  | .session value => value.initiatedBy.toList
  | .turn value => value.triggers
  | .message value => value.blocks.flatMap (fun block => block.previous.toList)
      ++ value.coverage.toList.flatMap (·.operations)
  | .tool value => value.output.toList.flatMap fun output => output.previous.toList
  | .commit importedRecord _ => importedRecord.toList
  | .note value => value.targets
  | .link value => value.source.operationIds ++ value.targets.flatMap Entity.operationIds
  | .file _ | .author _ | .original _ => []

/-- The items that a kind names, place by place. -/
def itemIds : Kind → List ItemId
  | .session value => value.participants ++ value.parent.toList
  | .turn value => [value.attempt]
  | .message value => value.audience ++ value.blocks.map (·.block)
  | .tool value => value.attempt :: value.parentCall.toList ++ value.output.toList.map (·.block)
  | .file value => value.revision.toList ++ value.causedBy.toList
  | .note value => value.items
  | .link value => value.source.itemIds ++ value.targets.flatMap Entity.itemIds
  | .commit _ _ | .author _ | .original _ => []

end Kind

namespace Operation

/-- The operations that a record names, apart from the old address. -/
def operationIds (record : Operation) : List OpId :=
  record.id :: record.parents ++ record.original.toList.map (·.operation) ++ record.kind.operationIds

/-- The items that a record names. -/
def itemIds (record : Operation) : List ItemId :=
  record.item :: record.author.toList ++ record.recorder :: record.session.toList
    ++ record.turn.toList ++ record.causes ++ record.kind.itemIds

end Operation

section

variable (f : OpId → OpId)

lemma operationIds_mapEntity (entity : Entity) :
    (entity.mapOperationId f).operationIds = entity.operationIds.map f := by
  cases entity <;> rfl

lemma itemIds_mapEntity (entity : Entity) :
    (entity.mapOperationId f).itemIds = entity.itemIds := by
  cases entity <;> rfl

/-- Every operation that a kind names is mapped. -/
lemma operationIds_mapKind (kind : Kind) :
    (kind.mapOperationIds f).operationIds = kind.operationIds.map f := by
  cases kind with
  | session value => cases h : value.initiatedBy <;> simp [Kind.mapOperationIds, Kind.operationIds, h]
  | turn value => rfl
  | message value =>
    have hblocks : (value.blocks.map fun block =>
          { block with previous := block.previous.map f }).flatMap (fun block => block.previous.toList)
        = (value.blocks.flatMap fun block => block.previous.toList).map f := by
      rw [List.flatMap_map, List.map_flatMap]
      congr 1
      funext block
      cases block.previous <;> simp
    show _ ++ _ = _
    rw [hblocks]
    cases hcoverage : value.coverage <;> simp [Kind.operationIds, hcoverage]
  | tool value =>
    cases houtput : value.output with
    | none => simp [Kind.mapOperationIds, Kind.operationIds, houtput]
    | some output =>
      cases hprevious : output.previous <;>
        simp [Kind.mapOperationIds, Kind.operationIds, houtput, hprevious]
  | commit importedRecord value => cases importedRecord <;> rfl
  | link value =>
    show _ ++ _ = _
    rw [operationIds_mapEntity, List.flatMap_map]
    simp only [operationIds_mapEntity, Kind.operationIds, List.map_append, List.map_flatMap]
  | _ => rfl

/-- No item that a kind names is mapped. -/
lemma itemIds_mapKind (kind : Kind) : (kind.mapOperationIds f).itemIds = kind.itemIds := by
  cases kind with
  | message value => simp [Kind.mapOperationIds, Kind.itemIds, Function.comp_def]
  | tool value =>
    cases houtput : value.output <;> simp [Kind.mapOperationIds, Kind.itemIds, houtput]
  | link value =>
    show _ ++ _ = _
    rw [itemIds_mapEntity, List.flatMap_map]
    simp only [itemIds_mapEntity, Kind.itemIds]
  | _ => rfl

/-- `map_operation_ids` maps every operation that a record names. -/
lemma operationIds_map (record : Operation) :
    (record.mapOperationIds f).operationIds = record.operationIds.map f := by
  unfold Operation.operationIds Operation.mapOperationIds
  dsimp only
  rw [operationIds_mapKind]
  cases horiginal : record.original <;> simp

/-- `map_operation_ids` maps no item. -/
lemma itemIds_map (record : Operation) : (record.mapOperationIds f).itemIds = record.itemIds := by
  unfold Operation.itemIds Operation.mapOperationIds
  dsimp only
  rw [itemIds_mapKind]

end

/-! ## Records that are viewed -/

/-- Nothing follows an earlier update, and nothing triggers a turn. -/
def Kind.Unlinked : Kind → Prop
  | .turn value => value.triggers = []
  | .message value => ∀ block ∈ value.blocks, block.previous = none
  | .tool value => ∀ output, value.output = some output → output.previous = none
  | _ => True

section

variable [KeyDerivation]

lemma remapEntity_eq (entity : Entity) :
    Operation.remapEntity entity = entity.mapOperationId upgradeId := by
  cases entity <;> rfl

/-- On such kinds the two ways to map references agree. -/
lemma upgradeKind_eq {kind : Kind} (h : kind.Unlinked) :
    Operation.upgradeKind kind = kind.mapOperationIds upgradeId := by
  cases kind with
  | turn value =>
    obtain ⟨action, triggers, attempt, outcome⟩ := value
    have htriggers : triggers = [] := h
    rw [htriggers]
    rfl
  | message value =>
    have hblocks : value.blocks.map (fun block =>
        { block with previous := block.previous.map upgradeId }) = value.blocks := by
      refine (List.map_congr_left fun block hblock => ?_).trans (List.map_id _)
      have hprevious : block.previous = none := h block hblock
      rw [hprevious]
      show { block with previous := none } = block
      rw [← hprevious]
    show Kind.message _ = Kind.message _
    rw [hblocks]
  | tool value =>
    have houtput : value.output.map (fun output =>
        { output with previous := output.previous.map upgradeId }) = value.output := by
      cases hsome : value.output with
      | none => rfl
      | some output =>
        have hprevious : output.previous = none := h output hsome
        show some { output with previous := output.previous.map upgradeId } = some output
        rw [hprevious]
        show some { output with previous := none } = some output
        rw [← hprevious]
    show Kind.tool _ = Kind.tool _
    rw [houtput]
  | link value =>
    have hremap : Operation.remapEntity = fun entity => entity.mapOperationId upgradeId :=
      funext remapEntity_eq
    unfold Operation.upgradeKind
    rw [hremap]
    rfl
  | _ => rfl

lemma unlinked_tool (id : OpId) (native name content : Payload) (stage : Stage) (terminal : Bool) :
    (tool id native name content stage terminal).Unlinked := by
  intro output houtput
  split at houtput
  · cases houtput
  · cases houtput
    rfl

lemma unlinked_plainKind {id : OpId} {payload : PlainKind} {kind : Kind}
    (h : plainKind id payload = some kind) : kind.Unlinked := by
  cases payload with
  | chainStart name version => cases h
  | tool toolCallId toolName stage content =>
    cases h
    exact unlinked_tool id toolCallId toolName content stage.stage false
  | command commandId content stage =>
    cases h
    exact unlinked_tool id commandId terminalName content stage.stage true
  | message content contentType =>
    cases h
    intro block hblock
    rw [List.mem_singleton.mp hblock]
    rfl
  | reflection scope covers window summary anchors =>
    cases h
    intro block hblock
    rw [List.mem_singleton.mp hblock]
    rfl
  | _ =>
    cases h
    trivial

variable [AddressHash] {op : Op payloads}

/-- The kinds of older operations come without predecessors. -/
lemma unlinked_kind (hop : op.kind.isActivity = false) {made : Kind} (h : kind op = some made) :
    made.Unlinked := by
  unfold kind at h
  split at h
  · exact unlinked_plainKind h
  · split at h <;> cases h <;> trivial
  · cases h
    trivial
  · cases h
    trivial
  · next record hkind =>
    rw [hkind] at hop
    cases hop

/-- The anchors of a private reflection come without a predecessor. -/
lemma unlinked_withReasoning {record : Operation} (h : record.kind.Unlinked) :
    (withReasoning op record).kind.Unlinked := by
  unfold withReasoning
  split
  · next anchors value _ hkind =>
    split
    · rw [hkind] at h
      intro block hblock
      dsimp only at hblock
      split at hblock
      · rcases List.mem_append.mp hblock with hblock | hblock
        · exact h block hblock
        · rw [List.mem_singleton.mp hblock]
          rfl
      · exact h block hblock
    · exact h
  · exact h

omit [AddressHash] in
lemma unlinked_withItem {record : Operation} {item : ItemId} (h : record.kind.Unlinked) :
    (withItem item record).kind.Unlinked := by
  unfold withItem
  dsimp only
  cases hkind : record.kind with
  | tool value =>
    rw [hkind] at h
    exact h
  | message value =>
    rw [hkind] at h
    intro block hblock
    obtain ⟨position, hposition, heq⟩ := List.mem_mapIdx.mp hblock
    rw [← heq]
    exact h value.blocks[position] (List.getElem_mem hposition)
  | _ =>
    rw [hkind] at h
    exact h

/-- What `view` makes of an older operation. -/
lemma view_eq_some (hop : op.kind.isActivity = false) {record : Operation} :
    Operation.view op = some record ↔ ∃ made, kind op = some made
      ∧ record = withItem (logicalItem (withReasoning op (withOriginal op (envelope op made))) op)
        (withReasoning op (withOriginal op (envelope op made))) := by
  unfold Operation.view
  split
  · next found hkind =>
    rw [hkind] at hop
    cases hop
  · rw [Option.bind_eq_bind, Option.bind_eq_some_iff]
    refine exists_congr fun made => and_congr_right fun _ => ?_
    rw [eq_comm (a := record)]
    exact Option.some_inj

omit [KeyDerivation] in
/-- Only the captured input is added. -/
lemma withOriginal_eq (op : Op payloads) (record : Operation) :
    withOriginal op record = { record with original := (withOriginal op record).original } := by
  unfold withOriginal
  split <;> rfl

/-- Only the kind is changed. -/
lemma withReasoning_eq (op : Op payloads) (record : Operation) :
    withReasoning op record = { record with kind := (withReasoning op record).kind } := by
  unfold withReasoning
  split
  · split <;> rfl
  · rfl

/-- A record that is viewed comes without predecessors. -/
lemma unlinked_view (hop : op.kind.isActivity = false) {record : Operation}
    (h : Operation.view op = some record) : record.kind.Unlinked := by
  obtain ⟨made, hmade, rfl⟩ := (view_eq_some hop).mp h
  apply unlinked_withItem
  apply unlinked_withReasoning
  rw [withOriginal_eq]
  exact unlinked_kind hop hmade

/-- The identity of a record that is viewed is that of the operation. -/
lemma id_view (hop : op.kind.isActivity = false) {record : Operation}
    (h : Operation.view op = some record) : record.id = op.id := by
  obtain ⟨made, hmade, rfl⟩ := (view_eq_some hop).mp h
  show (withReasoning op (withOriginal op (envelope op made))).id = op.id
  rw [withReasoning_eq, withOriginal_eq]
  rfl

/-- `upgrade` maps every operation identity in what `view` gives, and attaches the old address. -/
lemma upgrade_eq (hop : op.kind.isActivity = false) :
    Operation.upgrade op = (Operation.view op).map fun record =>
      { record.mapOperationIds upgradeId with legacy := some (Operation.legacyMapping op) } := by
  unfold Operation.upgrade
  split
  · next found hkind =>
    rw [hkind] at hop
    cases hop
  · cases hview : Operation.view op with
    | none => rfl
    | some record =>
      rw [Option.map_some, Option.bind_eq_bind, Option.bind_some, ← id_view hop hview,
        upgradeKind_eq (unlinked_view hop hview)]
      rfl

/-- The two conversions of an older operation agree: `upgrade` succeeds when `view` does, and gives
what `view` gives, with every operation identity mapped and the old address attached. In it every
operation that the record names is mapped, and no item is. -/
theorem upgrade_is_mapped_view (op : Op payloads) (hop : op.kind.isActivity = false) :
    (Operation.upgrade op = none ↔ Operation.view op = none)
      ∧ ∀ record, Operation.view op = some record →
        Operation.upgrade op = some { record.mapOperationIds upgradeId with
          legacy := some (Operation.legacyMapping op) }
        ∧ ∀ upgraded, Operation.upgrade op = some upgraded →
          upgraded.operationIds = record.operationIds.map upgradeId
            ∧ upgraded.itemIds = record.itemIds := by
  have hupgrade : Operation.upgrade op = (Operation.view op).map fun record =>
      { record.mapOperationIds upgradeId with legacy := some (Operation.legacyMapping op) } :=
    upgrade_eq hop
  refine ⟨by rw [hupgrade, Option.map_eq_none_iff], fun record hrecord => ?_⟩
  rw [hupgrade, hrecord]
  refine ⟨rfl, fun upgraded hupgraded => ?_⟩
  cases hupgraded
  exact ⟨operationIds_map upgradeId record, itemIds_map upgradeId record⟩

end

section Witness

open ByteString

/-- The bytes that the identity of an item is derived from. -/
def itemKey (space : String) (bytes : Bytes) : Bytes :=
  leBytes 8 space.utf8ByteSize ++ space.toUTF8.toList ++ bytes

/-- The item of the recorded message. -/
def messageItem : BitVec 256 := 0x362d1fe23a24ee373763c55223849036316701e0db72feeb27aa3e039c4b54c9

/-- The identity of the second operation of the same recorder. -/
def linkId : OpId := 0x455efceffc0e0777226ed93364264d53b32d0c7aefc3f5c6148e901155e34640

local instance convertedAddresses : AddressHash := wireAddresses

/-- An imported note that the recorded message is superseded, with the message as its parent. -/
def linkOp : Op payloads :=
  ⟨linkId, some ⟨1, 0, 43⟩, .one messageId, ⟨1, .unixMs 1700000000000, .none, 72⟩,
    .note [messageId] ⟨.supersedes, .inline [104, 105]⟩⟩

/-- BLAKE3 in its key derivation mode on what the conversion of the message and the note derives. -/
@[reducible] def messageKeys : KeyDerivation where
  deriveKey context bytes :=
    if context = "editchain.operation-schema3.v3" then
      if bytes = idBytes messageId then
        0xe04dd9d6e270249e682e801af506e6df7310d112a6c1f80b337500bf02e683fd
      else if bytes = idBytes linkId then
        0xe7de3d5b9e3d77d7d71719bce4c45d373279d21fcca45f98e2fe2a6bd1424f02
      else 0
    else if bytes = itemKey "legacy-item" (idBytes messageId) then messageItem
    else if bytes = itemKey "author" (leBytes 8 1) then
      0x31311ce097c508f84c55f5b7fdd2e7d29ca9c6b02656d6e90fcf3f67117e008a
    else if bytes = itemKey "legacy-recorder" (leBytes 8 1) then
      0xeb0795d3151291c87ec712dba6c0000ee7b386b1f07d117faa4b22996e8bce29
    else if bytes = itemKey "legacy-block" (idBytes messageId) then
      0xce0d417d304dda009ce90b641934f10d465a181c935611e00f9c4c350d86adbe
    else if bytes = itemKey "message-block" (idBytes messageItem ++ [48]) then
      0xb8e66904fbcad60b168643a59c863016f3a48d0ac4e7449545edd383d869934e
    else if bytes = itemKey "message-block" (idBytes messageItem ++ [49]) then
      0x3ab58eff1465bda2b4f0788708a4889b0629e5189b8a23cfd886bcd2072345d9
    else if bytes = itemKey "legacy-item" (idBytes linkId) then
      0x03170d466ac4cf92cb8e99db26eafa227be5c41e3f912da7be2177210c8d6930
    else 0

local instance convertedKeys : KeyDerivation := messageKeys

/-- The imported note is converted to a link under the identity derived from its own. The message
that it names as its parent, its original, its source and its target is mapped in each place, and
its logical items stay. -/
theorem upgrade_is_mapped_view_link :
    ∃ upgraded, Operation.upgrade linkOp = some upgraded
      ∧ upgraded.operationIds
        = 0xe7de3d5b9e3d77d7d71719bce4c45d373279d21fcca45f98e2fe2a6bd1424f02
          :: List.replicate 4 0xe04dd9d6e270249e682e801af506e6df7310d112a6c1f80b337500bf02e683fd
      ∧ upgraded.item
        = ⟨0x03170d466ac4cf92cb8e99db26eafa227be5c41e3f912da7be2177210c8d6930⟩ := by
  obtain ⟨record, hview⟩ : ∃ record, Operation.view linkOp = some record := ⟨_, rfl⟩
  have hids : (Operation.view linkOp).map Operation.operationIds
      = some (linkId :: List.replicate 4 messageId) := by decide +kernel
  have hitem : (Operation.view linkOp).map Operation.item
      = some ⟨0x03170d466ac4cf92cb8e99db26eafa227be5c41e3f912da7be2177210c8d6930⟩ := by
    decide +kernel
  rw [hview, Option.map_some, Option.some.injEq] at hids hitem
  obtain ⟨hupgrade, hmapped⟩ := (upgrade_is_mapped_view linkOp rfl).2 record hview
  refine ⟨_, hupgrade, ?_, hitem⟩
  rw [(hmapped _ hupgrade).1, hids]
  decide +kernel

end Witness
end EditChain.Activity
