import EditChain.Activity.CompatibilityTheorems
import Mathlib.Data.List.Nodup

/-!
# Which older operations can be converted

The older schemas accept operations that follow themselves, or the same operation twice, and edits
whose range is reversed; `validate` refuses such records. Everything else that is read is converted
to a record that passes validation, is wrapped, and is written.
-/

namespace EditChain.Activity

open Fallible
open Migration (SourceId ParentSet AddressHash Op OpKind Postcard decodeOp_eq_ok encodeOp_eq_ok
  intoOp_eq_some_iff misplaced_eq_false takeEnvelope_eq_ok)

/-! ## Validation -/

lemma require_eq_ok {valid : Bool} {message : String} :
    require valid message = .ok () ↔ valid = true := by
  unfold require
  cases valid <;> simp

lemma isOk_eq_true {result : Except ValidationError Unit} :
    result.isOk = true ↔ result = .ok () := by
  cases result with
  | error refused => exact iff_of_false Bool.false_ne_true nofun
  | ok value => exact iff_of_true rfl rfl

/-- A file whose edit replaces a range that ends before it starts. -/
def Kind.Reversed (kind : Kind) : Prop :=
  ∃ file range bytes, kind = .file file ∧ file.edit = .replaceBytes range bytes
    ∧ ¬ range.start ≤ range.stop

/-- What the conversion takes care of in each kind. -/
def Kind.Converted : Kind → Prop
  | .turn _ => False
  | .message value => value.outcome = none ∧ ∀ block ∈ value.blocks, block.previous = none
  | .tool value => (value.stage = .finished ↔ value.outcome.isSome) ∧ value.parentCall = none
      ∧ (∀ output, value.output = some output → output.previous = none)
      ∧ ∀ terminal, value.terminal = some terminal → terminal.exitCode = none
  | .file value => value.ranges = [] ∧ value.textRanges = [] ∧ value.action ≠ .rename
      ∧ (value.change = none ∨ value.action = .change ∨ value.action = .delete)
  | .note value => 0 < value.version
  | .original value => value.provider ≠ ""
  | .link value => value.relation ≠ ""
  | .session _ | .commit _ _ | .author _ => True

lemma validateBlock_of_none {record : Operation} {block : ContentUpdate}
    (h : block.previous = none) : record.validateBlock block = .ok () := by
  unfold Operation.validateBlock
  rw [require_eq_ok, h]
  rfl

lemma validateBlocks_of_nodup {record : Operation} {blocks : List ContentUpdate}
    (hprevious : ∀ block ∈ blocks, block.previous = none) (seen : List ItemId)
    (hnodup : (blocks.map (·.block)).Nodup) (hfresh : ∀ block ∈ blocks, block.block ∉ seen) :
    record.validateBlocks seen blocks = .ok () := by
  induction blocks generalizing seen with
  | nil => rfl
  | cons block rest ih =>
    obtain ⟨hfirst, hrest⟩ := List.nodup_cons.mp hnodup
    rw [Operation.validateBlocks, bind_eq_ok]
    refine ⟨(), require_eq_ok.mpr (by simpa using hfresh block (by simp)), ?_⟩
    refine bind_eq_ok.mpr ⟨(), validateBlock_of_none (hprevious block (by simp)), ?_⟩
    apply ih (fun other hother => hprevious other (by simp [hother])) _ hrest
    intro other hother hmem
    rcases List.mem_cons.mp hmem with heq | hseen
    · exact hfirst (List.mem_map.mpr ⟨other, hother, heq⟩)
    · exact hfresh other (by simp [hother]) hseen

section

variable [AddressHash]

omit [AddressHash] in
/-- Steps of a validation that all succeed. -/
lemma bind_eq_ok_iff {first : Except ValidationError Unit}
    {rest : Unit → Except ValidationError Unit} :
    (first >>= rest) = .ok () ↔ first = .ok () ∧ rest () = .ok () := by
  rw [bind_eq_ok]
  exact ⟨fun ⟨_, hfirst, hrest⟩ => ⟨hfirst, hrest⟩, fun ⟨hfirst, hrest⟩ => ⟨(), hfirst, hrest⟩⟩

omit [AddressHash] in
/-- Of the rules for kinds, only that on the range of an edit can refuse a converted record. -/
lemma validateKind_iff {record : Operation} (h : record.kind.Converted)
    (hnodup : ∀ value, record.kind = .message value → (value.blocks.map (·.block)).Nodup) :
    record.validateKind = .ok () ↔ ¬ record.kind.Reversed := by
  unfold Operation.validateKind
  cases hkind : record.kind with
  | turn value =>
    rw [hkind] at h
    cases h
  | message value =>
    rw [hkind] at h
    obtain ⟨houtcome, hprevious⟩ := h
    have hblocks : record.validateBlocks [] value.blocks = .ok () :=
      validateBlocks_of_nodup hprevious [] (hnodup value hkind) fun _ _ => List.not_mem_nil
    simp [bind_eq_ok_iff, require_eq_ok, houtcome, hblocks, Kind.Reversed]
  | tool value =>
    rw [hkind] at h
    obtain ⟨hstage, hparent, houtput, hexit⟩ := h
    have hterminal : (value.terminal.all fun terminal =>
        terminal.exitCode.isNone || value.outcome.isSome) = true := by
      cases hsome : value.terminal with
      | none => rfl
      | some terminal => simp [hexit terminal hsome]
    have hfinished : decide (value.stage = .finished) = value.outcome.isSome := by
      rw [Bool.eq_iff_iff, decide_eq_true_iff]
      exact hstage
    have hkindly : ¬ (Kind.tool value).Reversed := by simp [Kind.Reversed]
    dsimp only
    rw [bind_eq_ok_iff, bind_eq_ok_iff, hparent, hfinished]
    cases hsome : value.output with
    | none => simpa [require_eq_ok, hkindly] using hterminal
    | some output =>
      simpa [bind_eq_ok_iff, require_eq_ok, hkindly, validateBlock_of_none (houtput output hsome)]
        using hterminal
  | file value =>
    rw [hkind] at h
    obtain ⟨hranges, htext, hrename, hchange⟩ := h
    have hstates : (value.change.isNone = true
        ∨ value.action ∈ [FileAction.create, .change, .rename, .delete]) := by
      rcases hchange with hnone | hchange | hdelete
      · exact .inl (by rw [hnone]; rfl)
      · exact .inr (by rw [hchange]; decide)
      · exact .inr (by rw [hdelete]; decide)
    have hdestination : value.action ≠ .rename ∨ value.renamedTo.isSome = true := .inl hrename
    dsimp only
    rw [bind_eq_ok_iff, bind_eq_ok_iff, hranges, htext]
    cases hedit : value.edit with
    | replaceBytes range bytes =>
      have hreversed : (Kind.file value).Reversed ↔ ¬ range.start ≤ range.stop := by
        unfold Kind.Reversed
        constructor
        · intro ⟨file, found, _, hfile, hfound, hlt⟩
          cases hfile
          rw [hedit] at hfound
          cases hfound
          exact hlt
        · intro hlt
          exact ⟨value, range, bytes, rfl, hedit, hlt⟩
      rw [hreversed, not_not]
      simp only [bind_eq_ok_iff, require_eq_ok, decide_eq_true hdestination,
        decide_eq_true hstates, List.all_nil, true_and, and_true, decide_eq_true_iff]
    | _ =>
      have hkindly : ¬ (Kind.file value).Reversed := by
        intro ⟨file, range, bytes, hfile, hfound, _⟩
        cases hfile
        rw [hedit] at hfound
        cases hfound
      simp only [bind_eq_ok_iff, require_eq_ok, decide_eq_true hdestination,
        decide_eq_true hstates, List.all_nil, true_and, true_iff]
      exact hkindly
  | note value =>
    rw [hkind] at h
    have hversion : 0 < value.version := h
    simpa [require_eq_ok, Kind.Reversed] using hversion
  | original value =>
    rw [hkind] at h
    have hprovider : value.provider ≠ "" := h
    simpa [require_eq_ok, Kind.Reversed] using hprovider
  | link value =>
    rw [hkind] at h
    have hrelation : value.relation ≠ "" := h
    simpa [require_eq_ok, Kind.Reversed] using hrelation
  | _ => simp [Kind.Reversed]

/-- The rules on the envelope of a record. -/
lemma validate_iff {record : Operation} : record.validate = .ok ()
    ↔ record.id ∉ record.parents ∧ record.parents.Nodup
      ∧ (∀ original, record.original = some original →
        original.operation ≠ record.id ∧ original.converter ≠ "")
      ∧ (∀ legacy, record.legacy = some legacy → legacy.operation ≠ record.id
        ∧ ∀ source, legacy.source = some source → source.id = legacy.operation)
      ∧ record.validateKind = .ok () := by
  have hlegacy : record.validateLegacy = .ok () ↔ ∀ legacy, record.legacy = some legacy →
      legacy.operation ≠ record.id
        ∧ ∀ source, legacy.source = some source → source.id = legacy.operation := by
    unfold Operation.validateLegacy
    cases record.legacy with
    | none => simp
    | some legacy => simp [bind_eq_ok_iff, require_eq_ok, Option.all_eq_true]
  unfold Operation.validate
  simp [bind_eq_ok_iff, require_eq_ok, hlegacy, Option.all_eq_true]

end

/-! ## Converted records -/

lemma NoteRelationship.debug_ne (relationship : NoteRelationship) : relationship.debug ≠ "" := by
  cases relationship <;> decide

lemma GitLinkKind.relation_ne (linked : GitLinkKind) : linked.relation ≠ "" := by
  cases linked with
  | custom bytes => exact (by decide : "custom" ≠ "")
  | _ => decide

section

variable [KeyDerivation]

lemma converted_tool (id : OpId) (native name content : Payload) (stage : Stage) (terminal : Bool) :
    (tool id native name content stage terminal).Converted := by
  refine ⟨?_, rfl, unlinked_tool id native name content stage terminal, ?_⟩
  · dsimp only
    by_cases hfinished : stage = .finished
    · simp [hfinished]
    · simp [hfinished]
  · intro found hfound
    dsimp only at hfound
    split at hfound
    · cases hfound
      rfl
    · cases hfound

lemma converted_plainKind {id : OpId} {payload : PlainKind} {made : Kind}
    (h : plainKind id payload = some made) : made.Converted := by
  cases payload with
  | chainStart name version => cases h
  | tool toolCallId toolName stage content =>
    cases h
    exact converted_tool id toolCallId toolName content stage.stage false
  | command commandId content stage =>
    cases h
    exact converted_tool id commandId terminalName content stage.stage true
  | message content contentType =>
    have hunlinked := unlinked_plainKind h
    cases h
    exact ⟨rfl, hunlinked⟩
  | reflection scope covers window summary anchors =>
    have hunlinked := unlinked_plainKind h
    cases h
    exact ⟨rfl, hunlinked⟩
  | file value =>
    cases h
    refine ⟨rfl, rfl, ?_, ?_⟩ <;> dsimp only <;> cases value.stage <;>
      simp [FileStage.action, FileStage.change]
  | error code message =>
    cases h
    exact Nat.one_pos
  | ofImport rawRef rawHash =>
    cases h
    exact (by decide : "unknown" ≠ "")
  | unknown kindDiscriminant rawBytes =>
    cases h
    exact (by decide : "unknown" ≠ "")
  | actor label role =>
    cases h
    trivial
  | session id parent label metadata =>
    cases h
    trivial

variable [AddressHash] {op : Op payloads}

/-- The kinds that are made of older operations pass their rules, apart from the blocks of messages
and the range of an edit. -/
lemma converted_kind (hop : op.kind.isActivity = false) {made : Kind} (h : kind op = some made) :
    made.Converted := by
  unfold kind at h
  split at h
  · exact converted_plainKind h
  · next targetIds value hkind =>
    have hrelation : value.relationship.debug ≠ "" := value.relationship.debug_ne
    split at h <;> cases h
    · exact Nat.one_pos
    · exact Nat.one_pos
    · exact hrelation
  · cases h
    trivial
  · next origin value hkind =>
    cases h
    show value.kind.relation ≠ ""
    exact GitLinkKind.relation_ne value.kind
  · next record hkind =>
    rw [hkind] at hop
    cases hop

/-- A kind that is not a message stays; a message stays one. -/
lemma withReasoning_cases (op : Op payloads) (record : Operation) :
    (withReasoning op record).kind = record.kind
      ∨ ∃ value blocks, record.kind = .message value
        ∧ (withReasoning op record).kind
          = .message { value with category := .reasoning, coverage := none, blocks := blocks }
        ∧ (blocks = value.blocks ∨ ∃ anchors, blocks = value.blocks
          ++ [{ block op.id anchors .empty .replace with position := some 1 }]) := by
  unfold withReasoning
  split
  · next anchors value _ hkind =>
    split
    · right
      refine ⟨value, _, hkind, rfl, ?_⟩
      split
      · exact .inr ⟨anchors, rfl⟩
      · exact .inl rfl
    · exact .inl rfl
  · exact .inl rfl

lemma converted_withReasoning {record : Operation} (h : record.kind.Converted) :
    (withReasoning op record).kind.Converted := by
  rcases withReasoning_cases op record with hsame | ⟨value, blocks, hkind, hnext, hblocks⟩
  · rw [hsame]
    exact h
  · rw [hkind] at h
    have hunlinked : (withReasoning op record).kind.Unlinked :=
      unlinked_withReasoning (by rw [hkind]; exact h.2)
    rw [hnext] at hunlinked ⊢
    exact ⟨h.1, hunlinked⟩

omit [AddressHash] in
lemma converted_withItem {record : Operation} {item : ItemId} (h : record.kind.Converted) :
    (withItem item record).kind.Converted := by
  cases hkind : record.kind with
  | message value =>
    rw [hkind] at h
    have hunlinked : (withItem item record).kind.Unlinked :=
      unlinked_withItem (by rw [hkind]; exact h.2)
    unfold withItem at hunlinked ⊢
    rw [hkind] at hunlinked ⊢
    exact ⟨h.1, hunlinked⟩
  | tool value =>
    unfold withItem
    rw [hkind] at h ⊢
    exact h
  | _ =>
    unfold withItem
    rw [hkind] at h ⊢
    exact h

omit [KeyDerivation] [AddressHash] in
lemma converted_map {made : Kind} {f : OpId → OpId} (h : made.Converted) :
    (made.mapOperationIds f).Converted := by
  cases made with
  | message value =>
    refine ⟨h.1, fun block hblock => ?_⟩
    obtain ⟨old, hold, rfl⟩ := List.mem_map.mp hblock
    rw [h.2 old hold]
    rfl
  | tool value =>
    refine ⟨h.1, h.2.1, fun output houtput => ?_, h.2.2.2⟩
    obtain ⟨old, hold, rfl⟩ := Option.map_eq_some_iff.mp houtput
    rw [h.2.2.1 old hold]
    rfl
  | _ => exact h

/-! ## The blocks of converted messages -/

omit [AddressHash] in
/-- A message is made with one block. -/
lemma length_plainKind {id : OpId} {payload : PlainKind} {value : Message}
    (h : plainKind id payload = some (.message value)) : value.blocks.length = 1 := by
  cases payload with
  | message content contentType =>
    cases h
    rfl
  | reflection scope covers window summary anchors =>
    cases h
    rfl
  | _ => cases h

lemma length_kind (hop : op.kind.isActivity = false) {value : Message}
    (h : kind op = some (.message value)) : value.blocks.length = 1 := by
  unfold kind at h
  split at h
  · exact length_plainKind h
  · split at h <;> cases h
  · cases h
  · cases h
  · next record hkind =>
    rw [hkind] at hop
    cases hop

/-- The anchors of a reflection add one block at most. -/
lemma length_withReasoning {record : Operation} {value : Message}
    (hrecord : ∀ made, record.kind = .message made → made.blocks.length = 1)
    (h : (withReasoning op record).kind = .message value) : value.blocks.length ≤ 2 := by
  rcases withReasoning_cases op record with hsame | ⟨made, blocks, hkind, hnext, hblocks⟩
  · rw [hsame] at h
    have hlength := hrecord value h
    omega
  · have hlength := hrecord made hkind
    rw [hnext] at h
    cases h
    show blocks.length ≤ 2
    rcases hblocks with rfl | ⟨anchors, rfl⟩
    · omega
    · rw [List.length_append, List.length_singleton]
      omega

omit [AddressHash] in
/-- Two blocks at most are named apart by their positions. -/
lemma nodup_withItem {record : Operation} {item : ItemId} {value : Message}
    (hapart : messageBlock item 0 ≠ messageBlock item 1)
    (hrecord : ∀ made, record.kind = .message made → made.blocks.length ≤ 2)
    (h : (withItem item record).kind = .message value) : (value.blocks.map (·.block)).Nodup := by
  unfold withItem at h
  cases hkind : record.kind with
  | message made =>
    rw [hkind] at h
    cases h
    have hlength := hrecord made hkind
    match hblocks : made.blocks with
    | [] => simp
    | [first] => simp
    | [first, second] => simpa using hapart
    | first :: second :: third :: rest =>
      rw [hblocks] at hlength
      simp only [List.length_cons] at hlength
      omega
  | tool made =>
    rw [hkind] at h
    cases h
  | _ =>
    rw [hkind] at h
    cases h

/-! ## Reversed edits -/

omit [KeyDerivation] in
/-- An edit of the older schemas whose range ends before it starts. -/
def ReversedEdit (op : Op payloads) : Prop :=
  ∃ file range bytes, op.kind = .plain (.file file) ∧ file.edit = .replaceBytes range bytes
    ∧ ¬ range.start ≤ range.stop

lemma reversed_kind {made : Kind} (hop : op.kind.isActivity = false) (h : kind op = some made) :
    made.Reversed ↔ ReversedEdit op := by
  unfold kind at h
  unfold ReversedEdit
  split at h
  · next payload hkind =>
    rw [hkind]
    cases payload with
    | file value =>
      cases h
      simp [Kind.Reversed]
    | chainStart name version => cases h
    | _ =>
      cases h
      simp [Kind.Reversed, tool]
  · next hkind =>
    rw [hkind]
    split at h <;> cases h <;> simp [Kind.Reversed]
  · next hkind =>
    cases h
    simp [Kind.Reversed, hkind]
  · next hkind =>
    cases h
    simp [Kind.Reversed, hkind]
  · next record hkind =>
    rw [hkind] at hop
    cases hop

lemma reversed_withReasoning (op : Op payloads) (record : Operation) :
    (withReasoning op record).kind.Reversed ↔ record.kind.Reversed := by
  rcases withReasoning_cases op record with hsame | ⟨made, blocks, hkind, hnext, -⟩
  · rw [hsame]
  · rw [hnext, hkind]
    simp [Kind.Reversed]

omit [AddressHash] in
lemma reversed_withItem (item : ItemId) (record : Operation) :
    (withItem item record).kind.Reversed ↔ record.kind.Reversed := by
  unfold withItem
  cases record.kind <;> simp [Kind.Reversed]

omit [KeyDerivation] [AddressHash] in
lemma reversed_map (f : OpId → OpId) (made : Kind) :
    (made.mapOperationIds f).Reversed ↔ made.Reversed := by
  cases made <;> simp [Kind.Reversed, Kind.mapOperationIds]

/-! ## Converted operations -/

/-- The operations that the validator lets a conversion keep. -/
structure Convertible (op : Op payloads) : Prop where
  selfless : op.id ∉ op.parents.toList
  distinct : op.parents.toList.Nodup
  forward : ¬ ReversedEdit op

/-- The parents of an operation stay, and its captured input is the first of them. -/
lemma view_envelope (hop : op.kind.isActivity = false) {record : Operation}
    (h : Operation.view op = some record) :
    record.parents = op.parents.toList ∧ ∀ original, record.original = some original →
      original.operation ∈ op.parents.toList ∧ original.converter ≠ "" := by
  obtain ⟨made, -, rfl⟩ := (view_eq_some hop).mp h
  have hparents : (withReasoning op (withOriginal op (envelope op made))).parents
      = op.parents.toList := by
    rw [withReasoning_eq, withOriginal_eq]
    rfl
  have horiginal : (withReasoning op (withOriginal op (envelope op made))).original
      = (withOriginal op (envelope op made)).original := by
    rw [withReasoning_eq]
  refine ⟨hparents, fun original hfound => ?_⟩
  have hfound : (withOriginal op (envelope op made)).original = some original :=
    horiginal.symm.trans hfound
  unfold withOriginal at hfound
  split at hfound
  · obtain ⟨first, hfirst, rfl⟩ := Option.map_eq_some_iff.mp hfound
    refine ⟨List.mem_of_mem_head? hfirst, ?_⟩
    exact (by decide : "legacy-to-schema3-v3" ≠ "")
  · cases hfound

/-- What is viewed passes the rules for kinds unless it reverses the range of an edit. -/
lemma view_kind (hop : op.kind.isActivity = false) {record : Operation}
    (h : Operation.view op = some record) :
    record.kind.Converted ∧ (record.kind.Reversed ↔ ReversedEdit op)
      ∧ (messageBlock record.item 0 ≠ messageBlock record.item 1 →
        ∀ value, record.kind = .message value → (value.blocks.map (·.block)).Nodup) := by
  obtain ⟨made, hmade, rfl⟩ := (view_eq_some hop).mp h
  have hkind : (withOriginal op (envelope op made)).kind = made := by
    rw [withOriginal_eq]
    rfl
  refine ⟨?_, ?_, fun hapart value hvalue => ?_⟩
  · apply converted_withItem
    apply converted_withReasoning
    rw [hkind]
    exact converted_kind hop hmade
  · rw [reversed_withItem, reversed_withReasoning, hkind]
    exact reversed_kind hop hmade
  · refine nodup_withItem hapart (fun message hmessage => ?_) hvalue
    refine length_withReasoning (fun whole hwhole => ?_) hmessage
    rw [hkind] at hwhole
    exact length_kind hop (hwhole ▸ hmade)

/-- A converted record is valid just when the validator can keep its operation. -/
lemma validate_upgrade (hop : op.kind.isActivity = false) (hplace : op.misplaced = false)
    {record : Operation} (hupgrade : Operation.upgrade op = some record)
    (happart : Set.InjOn upgradeId {id | id = op.id ∨ id ∈ op.parents.toList})
    (hmoved : upgradeId op.id ≠ op.id)
    (hblocks : messageBlock record.item 0 ≠ messageBlock record.item 1) :
    record.validate = .ok () ↔ Convertible op := by
  rw [upgrade_eq hop] at hupgrade
  obtain ⟨viewed, hview, rfl⟩ := Option.map_eq_some_iff.mp hupgrade
  obtain ⟨hparents, horiginal⟩ := view_envelope hop hview
  obtain ⟨hconverted, hreversed, hnodup⟩ := view_kind hop hview
  have hid : viewed.id = op.id := id_view hop hview
  -- the parents are mapped apart from each other and from the operation
  have hself : upgradeId op.id ∈ op.parents.toList.map upgradeId ↔ op.id ∈ op.parents.toList := by
    rw [List.mem_map]
    constructor
    · intro ⟨parent, hparent, heq⟩
      rw [← happart (.inr hparent) (.inl rfl) heq]
      exact hparent
    · intro hmem
      exact ⟨op.id, hmem, rfl⟩
  have hdistinct : (op.parents.toList.map upgradeId).Nodup ↔ op.parents.toList.Nodup := by
    constructor
    · exact fun hmapped => hmapped.of_map upgradeId
    · intro hparents
      exact hparents.map_on fun first hfirst second hsecond heq =>
        happart (.inr hfirst) (.inr hsecond) heq
  have hkind : (viewed.kind.mapOperationIds upgradeId).Converted := converted_map hconverted
  have hmapped : ∀ value, viewed.kind.mapOperationIds upgradeId = .message value →
      (value.blocks.map (·.block)).Nodup := by
    intro value hvalue
    cases hmade : viewed.kind with
    | message made =>
      rw [hmade] at hvalue
      cases hvalue
      have hblock := hnodup hblocks made hmade
      rwa [List.map_map]
    | _ =>
      rw [hmade] at hvalue
      cases hvalue
  let converted : Operation :=
    { viewed.mapOperationIds upgradeId with legacy := some (Operation.legacyMapping op) }
  have hrules : converted.validateKind = .ok () ↔ ¬ converted.kind.Reversed :=
    validateKind_iff hkind hmapped
  rw [validate_iff, hrules]
  show upgradeId viewed.id ∉ viewed.parents.map upgradeId ∧ (viewed.parents.map upgradeId).Nodup
    ∧ (∀ original : OriginalRef, viewed.original.map _ = some original →
      original.operation ≠ upgradeId viewed.id ∧ original.converter ≠ "")
    ∧ (∀ legacy, some (Operation.legacyMapping op) = some legacy →
      legacy.operation ≠ upgradeId viewed.id
        ∧ ∀ source, legacy.source = some source → source.id = legacy.operation)
    ∧ ¬ (viewed.kind.mapOperationIds upgradeId).Reversed ↔ _
  rw [hid, hparents, hself, hdistinct, reversed_map, hreversed]
  constructor
  · intro ⟨hselfless, hparents, _, _, hforward⟩
    exact ⟨hselfless, hparents, hforward⟩
  · intro hconvertible
    refine ⟨hconvertible.selfless, hconvertible.distinct, fun original hfound => ?_,
      fun legacy hlegacy => ?_, hconvertible.forward⟩
    · obtain ⟨captured, hcaptured, rfl⟩ := Option.map_eq_some_iff.mp hfound
      obtain ⟨hmem, hconverter⟩ := horiginal captured hcaptured
      refine ⟨fun heq => hconvertible.selfless ?_, hconverter⟩
      rw [← happart (.inr hmem) (.inl rfl) heq]
      exact hmem
    · cases hlegacy
      exact ⟨hmoved.symm, misplaced_eq_false.mp hplace⟩

omit [KeyDerivation] in
/-- A valid record of schema three follows neither itself nor an operation twice. -/
lemma convertible_activity {record : Operation}
    (h : Migration.intoOp (P := payloads) record = some op)
    (hvalid : record.validate = .ok ()) : Convertible op := by
  obtain ⟨-, hkind, hmatches⟩ := intoOp_eq_some_iff.mp h
  obtain ⟨hid, -, -, hparents⟩ := of_decide_eq_true hmatches
  obtain ⟨hselfless, hdistinct, -⟩ := validate_iff.mp hvalid
  have hid : op.id = record.id := hid
  have hparents : op.parents.toList = record.parents.take 2 := hparents
  refine ⟨?_, ?_, ?_⟩
  · rw [hid, hparents]
    exact fun hmem => hselfless (List.mem_of_mem_take hmem)
  · rw [hparents]
    exact hdistinct.sublist (List.take_sublist 2 record.parents)
  · intro ⟨file, range, bytes, hfile, _⟩
    rw [hkind] at hfile
    cases hfile

/-- An operation that is read and converted gives a valid record just when it follows neither
itself nor an operation twice and reverses the range of no edit. The record is then wrapped and
written. -/
theorem upgrade_valid_iff [Postcard payloads] {bytes : Bytes} {op : Op payloads}
    {record : Operation} (hread : Migration.decodeOp bytes = .ok op)
    (hupgrade : Operation.upgrade op = some record)
    (happart : Set.InjOn upgradeId {id | id = op.id ∨ id ∈ op.parents.toList})
    (hmoved : upgradeId op.id ≠ op.id)
    (hblocks : messageBlock record.item 0 ≠ messageBlock record.item 1)
    (hwrites : ∀ written : Operation, ∃ body, Postcard.activityBytes written = .ok body) :
    (record.validate = .ok () ↔ Convertible op)
      ∧ (Convertible op → ∃ converted encoded,
        Migration.intoOp (P := payloads) record = some converted
          ∧ Migration.encodeOp converted = .ok encoded) := by
  obtain ⟨hfound, hplace⟩ := decodeOp_eq_ok.mp hread
  have hvalid : record.validate = .ok () ↔ Convertible op := by
    cases hop : op.kind.isActivity with
    | false => exact validate_upgrade hop hplace hupgrade happart hmoved hblocks
    | true =>
      cases hkind : op.kind with
      | activity found =>
        -- a record of schema three was valid when it was read, and is not changed
        unfold Operation.upgrade at hupgrade
        rw [hkind] at hupgrade
        cases hupgrade
        obtain ⟨-, hinto⟩ := (takeEnvelope_eq_ok.mp hfound).activity hkind
        have hvalid : record.validate = .ok () := isOk_eq_true.mp (intoOp_eq_some_iff.mp hinto).1
        exact iff_of_true hvalid (convertible_activity hinto hvalid)
      | _ =>
        rw [hkind] at hop
        cases hop
  refine ⟨hvalid, fun hconvertible => ?_⟩
  obtain ⟨body, hbody⟩ := hwrites record
  have hinto : ∃ converted, Migration.intoOp (P := payloads) record = some converted := by
    unfold Migration.intoOp
    rw [if_pos (isOk_eq_true.mpr (hvalid.mpr hconvertible))]
    exact ⟨_, rfl⟩
  obtain ⟨converted, hinto⟩ := hinto
  obtain ⟨-, hkind, hmatches⟩ := intoOp_eq_some_iff.mp hinto
  obtain ⟨-, hsource, -⟩ := of_decide_eq_true hmatches
  refine ⟨converted, _, hinto,
    encodeOp_eq_ok.mpr ⟨?_, .inl ⟨record, body, hkind, hinto, hbody, rfl⟩⟩⟩
  rw [misplaced_eq_false, Option.isNone_iff_eq_none.mp hsource]
  intro source hfound
  cases hfound

end
section Witness

local instance upgradedKeys : KeyDerivation := messageKeys
local instance upgradedAddresses : AddressHash := wireAddresses

/-- The recorded message after its conversion, as it is written. -/
def upgradedBody : Bytes :=
  idBytes 0xe04dd9d6e270249e682e801af506e6df7310d112a6c1f80b337500bf02e683fd
    ++ idBytes messageItem
    ++ 1 :: idBytes 0x31311ce097c508f84c55f5b7fdd2e7d29ca9c6b02656d6e90fcf3f67117e008a
    ++ idBytes 0xeb0795d3151291c87ec712dba6c0000ee7b386b1f07d117faa4b22996e8bce29
    ++ [0, 0, 1] ++ [128, 208, 149, 255, 188, 49] ++ [1, 42, 0, 0, 0, 1] ++ idBytes messageId
    ++ [0, 1, 1, 0, 42, 1, 2] ++ [128, 208, 149, 255, 188, 49] ++ [0, 8, 2, 0, 3, 0, 1]
    ++ idBytes 0xb8e66904fbcad60b168643a59c863016f3a48d0ac4e7449545edd383d869934e
    ++ [1, 0, 1, 0, 0, 1, 11, 104, 101, 108, 108, 111, 32, 119, 111, 114, 108, 100, 0, 0]

/-- A message without a source that follows itself. -/
def selfParentOp : Op payloads := ⟨1, none, .one 1, messageContext, .plain messageKind⟩

/-- That message behind its schema byte. -/
def selfParentWire : Bytes := idBytes 1 ++ [0, 1] ++ idBytes 1 ++ messageBody.tail

/-- Serialization of the two messages and of the conversion of the first. -/
local instance upgradedPostcard : Postcard payloads where
  takeOp bytes :=
    if messageWire <+: bytes then .ok (messageOp, bytes.drop messageWire.length)
    else if selfParentWire <+: bytes then .ok (selfParentOp, bytes.drop selfParentWire.length)
    else .error ⟨"Hit the end of buffer, expected more data"⟩
  takeLegacy _ := .error ⟨"Hit the end of buffer, expected more data"⟩
  takeActivity _ := .error ⟨"Hit the end of buffer, expected more data"⟩
  opBytes _ := .error Migration.serdeSerCustom
  legacyBytes _ := .error Migration.serdeSerCustom
  activityBytes _ := .ok upgradedBody

/-- The recorded message is converted, wrapped and written. -/
theorem upgrade_valid_iff_message :
    ∃ record converted encoded, Operation.upgrade messageOp = some record
      ∧ record.validate = .ok () ∧ Migration.intoOp (P := payloads) record = some converted
      ∧ Migration.encodeOp converted = .ok encoded := by
  have hread : Migration.decodeOp messageV3 = .ok messageOp := rfl
  obtain ⟨record, hupgrade⟩ : ∃ record, Operation.upgrade messageOp = some record := ⟨_, rfl⟩
  have hitem : (Operation.upgrade messageOp).map Operation.item
      = some (.derived "legacy-item" (idBytes messageId)) := rfl
  rw [hupgrade, Option.map_some, Option.some.injEq] at hitem
  have happart : Set.InjOn upgradeId {id | id = messageOp.id ∨ id ∈ messageOp.parents.toList} := by
    rintro first (rfl | hfirst) second (rfl | hsecond) -
    · rfl
    · cases hsecond
    · cases hfirst
    · cases hfirst
  have hblocks : messageBlock record.item 0 ≠ messageBlock record.item 1 := by
    rw [hitem]
    decide +kernel
  have hmoved : upgradeId messageOp.id ≠ messageOp.id := by decide +kernel
  obtain ⟨hvalid, hwritten⟩ := upgrade_valid_iff hread hupgrade happart hmoved hblocks
    fun _ => ⟨upgradedBody, rfl⟩
  have hconvertible : Convertible messageOp := by
    refine ⟨List.not_mem_nil, List.nodup_nil, ?_⟩
    intro ⟨file, range, bytes, hfile, _⟩
    cases hfile
  obtain ⟨converted, encoded, hinto, hencoded⟩ := hwritten hconvertible
  exact ⟨record, converted, encoded, hupgrade, hvalid.mpr hconvertible, hinto, hencoded⟩

/-- A message that follows itself is read, and its conversion is refused. -/
theorem self_parent_is_refused :
    Migration.decodeOp (recordMagic ++ Migration.recordSchema :: selfParentWire) = .ok selfParentOp
      ∧ ∀ keys : KeyDerivation, ∃ record, @Operation.upgrade keys _ selfParentOp = some record
        ∧ record.validate ≠ .ok () := by
  refine ⟨rfl, fun keys => ?_⟩
  obtain ⟨record, hupgrade⟩ : ∃ record, @Operation.upgrade keys _ selfParentOp = some record :=
    ⟨_, rfl⟩
  have hids : (@Operation.upgrade keys _ selfParentOp).map
      (fun record => (record.id, record.parents))
        = some (@upgradeId keys 1, [@upgradeId keys 1]) := rfl
  rw [hupgrade, Option.map_some, Option.some.injEq, Prod.mk.injEq] at hids
  obtain ⟨hid, hparents⟩ := hids
  refine ⟨record, hupgrade, fun hvalid => (validate_iff.mp hvalid).1 ?_⟩
  rw [hid, hparents]
  exact List.mem_singleton_self _

end Witness
end EditChain.Activity
