import EditChain.Sync.AccordTheorems

/-!
# Reassembling an object

A peer asks for an object from the length it has, and the source answers with the chunk at that
offset. Each counts for itself, and both are done at the same chunk. Whatever chunks arrive, a
download takes only those that extend it contiguously within one total.
-/

namespace EditChain.Sync

open Core Fallible

/-! ## What a download accepts -/

/-- A chunk as it arrives from a peer. -/
structure ChunkArrival where
  object : Object
  offset : ℕ
  total : ℕ
  bytes : Bytes

namespace Download

/-- Offer a chunk to a download. -/
def offer (download : Download) (arrival : ChunkArrival) : Except IoError Bool × Download :=
  (append arrival.object arrival.offset arrival.total arrival.bytes).exec download

/-- Offer chunks one after the other, also after a refusal, and list those that are accepted. -/
def offerAll : List ChunkArrival → Download → Download × List ChunkArrival
  | [], download => (download, [])
  | arrival :: rest, download =>
    match download.offer arrival with
    | (.ok _, next) => ((offerAll rest next).1, arrival :: (offerAll rest next).2)
    | (.error _, next) => offerAll rest next

/-- Chunks of one object that follow each other from an offset on, within one total. -/
def Contiguous (object : Object) (total : ℕ) : ℕ → List ChunkArrival → Prop
  | _, [] => True
  | offset, arrival :: rest =>
    arrival.object = object ∧ arrival.offset = offset ∧ arrival.total = total
      ∧ total ≤ maxObjectBytes ∧ arrival.bytes.length ≤ chunkBytes
      ∧ offset + arrival.bytes.length ≤ total
      ∧ Contiguous object total (offset + arrival.bytes.length) rest

/-- A chunk is refused and changes nothing, or it is appended. -/
lemma offer_cases (download : Download) (arrival : ChunkArrival) :
    (∃ error, download.offer arrival = (.error error, download))
      ∨ (arrival.object = download.object ∧ arrival.offset = download.bytes.length
        ∧ (∀ previous, download.total = some previous → previous = arrival.total)
        ∧ arrival.total ≤ maxObjectBytes ∧ arrival.bytes.length ≤ chunkBytes
        ∧ download.bytes.length + arrival.bytes.length ≤ arrival.total
        ∧ download.offer arrival
          = (.ok (decide (arrival.offset + arrival.bytes.length = arrival.total)),
            { download with
              total := some arrival.total, bytes := download.bytes ++ arrival.bytes })) := by
  unfold offer append
  rw [exec_bind_of_ok (exec_get download), exec_guard]
  split
  · exact .inl ⟨_, rfl⟩
  rw [exec_guard]
  split
  · exact .inl ⟨_, rfl⟩
  · next haccepted =>
    push Not at haccepted
    obtain ⟨hobject, hoffset, hmax, htotal, hstop, hchunk, -⟩ := haccepted
    refine .inr ⟨hobject, hoffset, fun previous hprevious => ?_, hmax, hchunk, ?_, rfl⟩
    · rw [hprevious] at htotal
      simpa using htotal
    · omega

/-- The chunks that a download takes follow each other, and are what it grows by. -/
lemma offerAll_spec (download : Download) (arrivals : List ChunkArrival) :
    ∃ total, (∀ previous, download.total = some previous → previous = total)
      ∧ Contiguous download.object total download.bytes.length (offerAll arrivals download).2
      ∧ (offerAll arrivals download).1.bytes
        = download.bytes ++ (offerAll arrivals download).2.flatMap ChunkArrival.bytes := by
  induction arrivals generalizing download with
  | nil =>
    refine ⟨download.total.getD 0, fun previous hprevious => ?_, trivial, ?_⟩
    · rw [hprevious]
      rfl
    · exact (List.append_nil _).symm
  | cons arrival rest ih =>
    rw [offerAll]
    rcases offer_cases download arrival with
      ⟨error, hrefused⟩ | ⟨hobject, hoffset, htotal, hmax, hchunk, hstop, haccepted⟩
    · rw [hrefused]
      exact ih download
    · rw [haccepted]
      -- the total of the first accepted chunk is the total of all
      obtain ⟨total, hsame, hrest, hbytes⟩ := ih { download with
        total := some arrival.total, bytes := download.bytes ++ arrival.bytes }
      obtain rfl := hsame arrival.total rfl
      rw [List.length_append] at hrest
      refine ⟨arrival.total, htotal, ⟨hobject, hoffset, rfl, hmax, hchunk, hstop, hrest⟩, ?_⟩
      rw [hbytes, List.flatMap_cons, List.append_assoc]

end Download

/-! ## The exchange of one object -/

variable {Op : Type} [Schema Op] [Blake3] {R : Type} [ReplicationStorage R]

/-- A request for an object from the length that was received, and what is done with the answer. -/
def exchangeChunk : Fallible IoError ((Source × R) × Download) Bool := do
  let state ← get
  let object := state.2.object
  let offset := state.2.bytes.length
  let _request ← lift (object.need offset)
  match ← zoom Prod.fst (fun source s => (source, s.2)) (Source.need object offset) with
  | .chunk record blob offset total bytes =>
    zoom Prod.snd (fun download s => (s.1, download))
      (Download.append ⟨record, blob⟩ offset total bytes)
  | _ => throw (invalid "missing response for a different or partial object")

/-- The first requests of an exchange. -/
def exchangeChunks : ℕ → Fallible IoError ((Source × R) × Download) (List Bool)
  | 0 => return []
  | n + 1 => do
    let answers ← exchangeChunks n
    let done ← exchangeChunk
    return answers ++ [done]

/-- The source has an object and may begin to send it. -/
structure Source.Ready (source : Source) (r r' : R) (object : Object) (bytes : Bytes) : Prop where
  awaiting : source.awaitingCheck = true
  idle : source.active = none
  room : source.unacked.card < inventoryPage
  unsent : object ∉ source.unacked
  loads : (Source.load object).exec (source, r) = (.ok (some bytes), (source, r'))

/-- The number of chunks of an object. An empty object is sent in one. -/
def chunkCount (length : ℕ) : ℕ := (length - 1) / chunkBytes + 1

omit [Blake3] in
lemma lt_chunkCount {n : ℕ} (hn : 1 ≤ n) (length : ℕ) :
    n < chunkCount length ↔ n * chunkBytes < length := by
  have hpos : 0 < chunkBytes := by decide
  have hlarge : chunkBytes ≤ n * chunkBytes := Nat.le_mul_of_pos_left _ hn
  unfold chunkCount
  rw [Nat.lt_succ_iff, Nat.le_div_iff_mul_le hpos]
  omega

section Exchange

variable {source : Source} {r r' : R} {object : Object} {bytes : Bytes} {offset : ℕ}

omit [ReplicationStorage R] in
lemma exec_sendChunk (source : Source) (hactive : source.active = some (object, bytes, offset))
    (hoffset : offset ≤ bytes.length) (hsize : bytes.length ≤ maxObjectBytes) :
    (Source.sendChunk object offset).exec source
      = (.ok (.chunk object.record object.blob offset bytes.length
          ((bytes.drop offset).take chunkBytes)),
        source.advanced object bytes (min (offset + chunkBytes) bytes.length)) := by
  have hsmall : ¬ 2 ^ 32 ≤ bytes.length := by
    unfold maxObjectBytes at hsize
    omega
  have hlength : offset + ((bytes.drop offset).take chunkBytes).length
      = min (offset + chunkBytes) bytes.length := by
    rw [List.length_take, List.length_drop]
    omega
  unfold Source.sendChunk
  rw [exec_bind_of_ok (exec_get source), hactive]
  dsimp only
  rw [exec_guard, if_neg (by simp), exec_guard, if_neg hsmall, exec_guard, if_neg (by omega),
    hlength]
  rfl

/-- The first request loads the object and sends its first chunk. -/
lemma exec_need_first (hready : source.Ready r r' object bytes)
    (hsize : bytes.length ≤ maxObjectBytes) :
    (Source.need object 0).exec (source, r)
      = (.ok (.chunk object.record object.blob 0 bytes.length (bytes.take chunkBytes)),
        (source.advanced object bytes (min chunkBytes bytes.length), r')) := by
  have hsend := exec_sendChunk { source with active := some (object, bytes, 0) } rfl
    (Nat.zero_le _) hsize
  rw [Nat.zero_add, List.drop_zero] at hsend
  unfold Source.need
  rw [exec_bind_of_ok (exec_get (source, r)), exec_guard, if_neg (not_not.mpr hready.awaiting),
    if_pos rfl, exec_guard, if_neg, exec_bind_of_ok hready.loads]
  · dsimp only
    unfold Source.onSource
    rw [exec_bind_of_ok (exec_zoom ..), exec_zoom]
    dsimp only
    rw [exec_modify, hsend]
    unfold Source.advanced
    split
    · rfl
    · rfl
  · rw [hready.idle]
    intro hbusy
    rcases hbusy with hactive | hfull | hsent
    · cases hactive
    · exact absurd hready.room (Nat.not_lt.mpr hfull)
    · exact hready.unsent hsent

/-- A later request continues where the last chunk ended. -/
lemma exec_need_next (source : Source) (r : R) (hawaiting : source.awaitingCheck = true)
    (hactive : source.active = some (object, bytes, offset)) (hpos : offset ≠ 0)
    (hoffset : offset ≤ bytes.length) (hsize : bytes.length ≤ maxObjectBytes) :
    (Source.need object offset).exec (source, r)
      = (.ok (.chunk object.record object.blob offset bytes.length
          ((bytes.drop offset).take chunkBytes)),
        (source.advanced object bytes (min (offset + chunkBytes) bytes.length), r)) := by
  unfold Source.need
  rw [exec_bind_of_ok (exec_get (source, r)), exec_guard, if_neg (not_not.mpr hawaiting),
    if_neg hpos]
  unfold Source.onSource
  rw [exec_zoom, exec_sendChunk source hactive hoffset hsize]

/-- A request that is answered with the chunk at its offset. -/
lemma exec_exchangeChunk (download : Download) {later : Source} {storage storage' : R}
    (hneed : (Source.need download.object download.bytes.length).exec (source, storage)
      = (.ok (.chunk download.object.record download.object.blob download.bytes.length
          bytes.length ((bytes.drop download.bytes.length).take chunkBytes)), (later, storage')))
    (hsize : bytes.length ≤ maxObjectBytes) (hbounded : download.bytes.length ≤ bytes.length)
    (htotal : download.total.any (fun previous => decide (previous ≠ bytes.length)) = false) :
    exchangeChunk.exec ((source, storage), download)
      = (.ok (decide (min (download.bytes.length + chunkBytes) bytes.length = bytes.length)),
        ((later, storage'), { download with
          total := some bytes.length
          bytes := download.bytes ++ (bytes.drop download.bytes.length).take chunkBytes })) := by
  have hrequest : download.object.need download.bytes.length
      = .ok (.need download.object.record download.object.blob download.bytes.length) := by
    unfold Object.need
    unfold maxObjectBytes at hsize
    rw [if_neg (by omega)]
  have hlength : download.bytes.length + ((bytes.drop download.bytes.length).take chunkBytes).length
      = min (download.bytes.length + chunkBytes) bytes.length := by
    rw [List.length_take, List.length_drop]
    omega
  have happend := exec_append hsize hbounded htotal rfl
  unfold exchangeChunk
  rw [exec_bind_of_ok (exec_get _)]
  dsimp only
  rw [hrequest, exec_bind_of_ok (exec_lift ..), exec_bind, exec_zoom]
  dsimp only
  rw [hneed]
  dsimp only
  rw [exec_zoom]
  dsimp only
  rw [happend, hlength]

/-- The source after it has sent some chunks of an object. -/
def Source.sent (object : Object) (bytes : Bytes) (n : ℕ) (source : Source) : Source :=
  if n = chunkCount bytes.length then
    { source with active := none, unacked := insert object source.unacked }
  else { source with active := some (object, bytes, n * chunkBytes) }

/-- The download after it has received some chunks of an object. -/
def received (object : Object) (bytes : Bytes) (n : ℕ) : Download :=
  ⟨object, bytes.take (n * chunkBytes), some bytes.length⟩

omit [ReplicationStorage R] in
lemma advanced_eq_sent (source : Source) (object : Object) {n : ℕ} (hn : 1 ≤ n)
    (hle : n ≤ chunkCount bytes.length) :
    source.advanced object bytes (min (n * chunkBytes) bytes.length)
      = source.sent object bytes n := by
  have hlast := lt_chunkCount hn bytes.length
  unfold Source.advanced Source.sent
  by_cases hn' : n = chunkCount bytes.length
  · rw [if_pos hn', if_pos (by omega)]
  · have hlt : n * chunkBytes < bytes.length := hlast.1 (by omega)
    rw [if_neg hn', if_neg (by omega), Nat.min_eq_left (by omega)]

omit [Blake3] [ReplicationStorage R] in
lemma done_iff (bytes : Bytes) {n : ℕ} (hn : 1 ≤ n) (hle : n ≤ chunkCount bytes.length) :
    decide (min (n * chunkBytes) bytes.length = bytes.length)
      = decide (n = chunkCount bytes.length) := by
  have hlast := lt_chunkCount hn bytes.length
  rw [decide_eq_decide]
  omega

/-- After every chunk both sides know how much was sent, and whether it was the last one. -/
lemma exec_exchangeChunks (hready : source.Ready r r' object bytes)
    (hsize : bytes.length ≤ maxObjectBytes) {n : ℕ} (hn : 1 ≤ n)
    (hle : n ≤ chunkCount bytes.length) :
    (exchangeChunks n).exec ((source, r), Download.new object)
      = (.ok (List.replicate (n - 1) false ++ [decide (n = chunkCount bytes.length)]),
        ((source.sent object bytes n, r'), received object bytes n)) := by
  induction n, hn using Nat.le_induction with
  | base =>
    have hneed := exec_need_first hready hsize
    have hchunk := exec_exchangeChunk (Download.new object) hneed hsize
      (Nat.zero_le _) rfl
    rw [exchangeChunks, exchangeChunks, exec_bind_of_ok (exec_pure ..), exec_bind_of_ok hchunk,
      exec_pure]
    have hadvanced := advanced_eq_sent source object le_rfl hle
    have hdone := done_iff bytes le_rfl hle
    rw [Nat.one_mul] at hadvanced hdone
    show (Except.ok ([] ++ [decide (min (0 + chunkBytes) bytes.length = bytes.length)]), _) = _
    rw [Nat.zero_add, hdone, hadvanced]
    unfold received
    rw [Nat.one_mul]
    rfl
  | succ n hn ih =>
    have hlast := lt_chunkCount hn bytes.length
    have hlt : n * chunkBytes < bytes.length := hlast.1 (by omega)
    have hpos : n * chunkBytes ≠ 0 := by
      have hchunk : 0 < chunkBytes := by decide
      have hlarge : chunkBytes ≤ n * chunkBytes := Nat.le_mul_of_pos_left _ hn
      omega
    have hlength : (received object bytes n).bytes.length = n * chunkBytes := by
      show (bytes.take (n * chunkBytes)).length = _
      rw [List.length_take]
      omega
    have hsent : source.sent object bytes n
        = { source with active := some (object, bytes, n * chunkBytes) } := if_neg (by omega)
    have hneed := exec_need_next (source.sent object bytes n) r'
      (by rw [hsent]; exact hready.awaiting) (by rw [hsent]) hpos (by omega) hsize
    have hagain : (source.sent object bytes n).advanced object bytes
        (min (n * chunkBytes + chunkBytes) bytes.length) = source.sent object bytes (n + 1) := by
      have hadvanced := advanced_eq_sent source object (n := n + 1) (by omega) hle
      rw [Nat.succ_mul] at hadvanced
      rw [← hadvanced, hsent]
      rfl
    have hdone := done_iff bytes (n := n + 1) (by omega) hle
    rw [Nat.succ_mul] at hdone
    rw [← hlength, hlength, hagain] at hneed
    have hchunk := exec_exchangeChunk (received object bytes n)
      (by rw [hlength]; exact hneed) hsize (by rw [hlength]; omega) (by simp [received])
    rw [exchangeChunks, exec_bind_of_ok (ih (by omega)), exec_bind_of_ok hchunk, exec_pure,
      hlength, hdone]
    have hanswers : List.replicate (n - 1) false ++ [decide (n = chunkCount bytes.length)]
        = List.replicate (n + 1 - 1) false := by
      rw [decide_eq_false (by omega), ← List.replicate_succ']
      congr 1
      omega
    rw [hanswers]
    unfold received
    rw [Nat.succ_mul, List.take_add]

/-- An object of any size is transferred in a known number of chunks. Only the last one is answered
to be the last, and with it the source moves the object to those to be acknowledged. What a
download takes from any peer follows each other within one total. -/
theorem transfer_reassembles (source : Source) (r r' : R) (object : Object) (bytes : Bytes)
    (hsize : bytes.length ≤ maxObjectBytes) (hready : source.Ready r r' object bytes) :
    (∀ n, 1 ≤ n → n < chunkCount bytes.length →
        (exchangeChunks n).exec ((source, r), Download.new object)
          = (.ok (List.replicate n false),
            (({ source with active := some (object, bytes, n * chunkBytes) }, r'),
              ⟨object, bytes.take (n * chunkBytes), some bytes.length⟩)))
      ∧ (exchangeChunks (chunkCount bytes.length)).exec ((source, r), Download.new object)
        = (.ok (List.replicate (chunkCount bytes.length - 1) false ++ [true]),
          (({ source with active := none, unacked := insert object source.unacked }, r'),
            ⟨object, bytes, some bytes.length⟩))
      ∧ ∀ (other : Object) (arrivals : List ChunkArrival), ∃ total,
        Download.Contiguous other total 0 (Download.offerAll arrivals (.new other)).2
          ∧ (Download.offerAll arrivals (.new other)).1.bytes
            = (Download.offerAll arrivals (.new other)).2.flatMap ChunkArrival.bytes := by
  refine ⟨fun n hn hlt => ?_, ?_, fun other arrivals => ?_⟩
  · have hexec := exec_exchangeChunks hready hsize hn hlt.le
    have hanswers : List.replicate (n - 1) false ++ [decide (n = chunkCount bytes.length)]
        = List.replicate n false := by
      rw [decide_eq_false (by omega), ← List.replicate_succ']
      congr 1
      omega
    have hsent : source.sent object bytes n
        = { source with active := some (object, bytes, n * chunkBytes) } := if_neg (by omega)
    rw [hexec, hanswers, hsent]
    rfl
  · have hpos : 1 ≤ chunkCount bytes.length := Nat.le_add_left 1 _
    have hexec := exec_exchangeChunks hready hsize hpos le_rfl
    have hsent : source.sent object bytes (chunkCount bytes.length)
        = { source with active := none, unacked := insert object source.unacked } := if_pos rfl
    have hall : bytes.take (chunkCount bytes.length * chunkBytes) = bytes := by
      have hlast := lt_chunkCount hpos bytes.length
      exact List.take_of_length_le (by omega)
    unfold received at hexec
    rw [hexec, hsent, hall, decide_eq_true rfl]
  · obtain ⟨total, -, hcontiguous, hbytes⟩ :=
      Download.offerAll_spec (Download.new other) arrivals
    exact ⟨total, hcontiguous, hbytes⟩

end Exchange

end EditChain.Sync

namespace EditChain.Sync

open Core Fallible

section Witness

local instance supplySchema : Schema OpId := messageSchema
local instance supplyDigests : Blake3 := messageDigests

/-- A storage that supplies one content for every hash. -/
structure Supply where
  bytes : Bytes

local instance supplyStorage : ReplicationStorage Supply where
  namespaceOf _ := "chain"
  ensureScope := pure ()
  snapshot := pure .empty
  receivingSnapshot := pure .empty
  ingestRecords _ := pure ()
  blobHashes _ _ := pure ∅
  readBlob _ _ _ := do return some (← get).bytes
  ingestBlob _ _ _ := pure ()

/-- Content that fills two chunks. -/
def twoChunks : Bytes := List.replicate (2 * chunkBytes) 0

/-- The key of the message. -/
def suppliedKey : RecordKey := ⟨messageId, Blake3.hash messageV1⟩

/-- A snapshot of the message. -/
def suppliedSnapshot : Snapshot :=
  Snapshot.empty.insert suppliedKey messageV1 (by decide +kernel)

/-- A source in the middle of a page. -/
def supplySource : Source where
  snapshot := some suppliedSnapshot
  awaitingCheck := true

/-- Content of the message. -/
def suppliedContent : Object := ⟨suppliedKey, some 0⟩

lemma supply_loads : (Source.load suppliedContent).exec (supplySource, Supply.mk twoChunks)
    = (.ok (some twoChunks), (supplySource, ⟨twoChunks⟩)) := by
  have hrecord : suppliedSnapshot.record suppliedKey = some messageV1 := by decide +kernel
  unfold Source.load
  rw [exec_bind_of_ok (exec_get _)]
  simp only [supplySource, suppliedContent, hrecord]
  rfl

/-- Content that fills two chunks is done with the second. -/
theorem transfer_reassembles_twoChunks :
    (exchangeChunks 2).exec ((supplySource, Supply.mk twoChunks), Download.new suppliedContent)
      = (.ok [false, true],
        (({ supplySource with unacked := {suppliedContent} }, ⟨twoChunks⟩),
          ⟨suppliedContent, twoChunks, some twoChunks.length⟩)) := by
  have hlength : twoChunks.length = 2 * chunkBytes := List.length_replicate ..
  have hcount : chunkCount twoChunks.length = 2 := by
    rw [hlength]
    rfl
  have hready : supplySource.Ready (Supply.mk twoChunks) (Supply.mk twoChunks) suppliedContent
      twoChunks := ⟨rfl, rfl, by decide, by simp [supplySource], supply_loads⟩
  have hexec := (transfer_reassembles supplySource (Supply.mk twoChunks) (Supply.mk twoChunks)
    suppliedContent twoChunks (by rw [hlength]; decide) hready).2.1
  rw [hcount] at hexec
  exact hexec

end Witness
end EditChain.Sync
