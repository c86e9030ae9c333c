import FluentStf.Header
import FluentStf.Nitro.BuiltBlobs

/-! What accepted blobs say about the transactions of the executed blocks. Only the
headers are compared; the transaction lists behind them are not read. -/
namespace FluentStf.Nitro

open Blob BlobBuilder

/-- The entry has these transaction envelopes behind its header. -/
def Carries (entry : Entry) (txs : List Bytes) : Prop :=
  entry.rest = Rlp.encodeList (txs.map Rlp.encodeBytes)

/-- An empty payload has no entries, any other one has them in its outer list. -/
def HasEntries (payload : Bytes) (entries : List Entry) : Prop :=
  payload = [] ∧ entries = [] ∨
    payload = payloadOf entries ∧ (entries.flatMap Entry.encode).length < 2 ^ 64

theorem entry_isItem (entry : Entry) : Rlp.IsItem entry.encode := .framed _ _ entry.fits rfl

theorem IsList.isItem {bytes : Bytes} (h : IsList bytes) : Rlp.IsItem bytes := by
  obtain ⟨body, hbody, rfl⟩ := h
  exact .framed _ body hbody rfl

theorem entry_encode_inj {entry other : Entry} (h : entry.encode = other.encode) :
    entry = other := by
  obtain ⟨_, hbytes⟩ := Rlp.Header.encode_append_inj entry.fits other.fits h
  obtain ⟨hheader, hrest⟩ :=
    (IsList.isItem entry.header_isList).append_inj (IsList.isItem other.header_isList) hbytes
  cases entry
  cases other
  cases hheader
  cases hrest
  rfl

/-- The entries can be read off the payload. -/
theorem HasEntries.unique {payload : Bytes} {entries others : List Entry}
    (h : HasEntries payload entries) (h' : HasEntries payload others) : entries = others := by
  have hne : ∀ es : List Entry, (es.flatMap Entry.encode).length < 2 ^ 64 → payloadOf es ≠ [] := by
    intro es hlt hnil
    obtain ⟨code, tail, hcode, _⟩ :=
      Rlp.Header.encode_head ⟨true, (es.flatMap Entry.encode).length⟩ hlt
    rw [payloadOf, hcode] at hnil
    cases hnil
  rcases h with ⟨rfl, rfl⟩ | ⟨rfl, hlt⟩
  · rcases h' with ⟨_, rfl⟩ | ⟨hpayload, hlt'⟩
    · rfl
    · exact (hne others hlt' hpayload.symm).elim
  · rcases h' with ⟨hpayload, _⟩ | ⟨hpayload, hlt'⟩
    · exact (hne entries hlt hpayload).elim
    · have hflat := (Rlp.Header.encode_append_inj hlt hlt' hpayload).2
      rw [List.flatMap_def, List.flatMap_def] at hflat
      have hitems : ∀ (es : List Entry), ∀ bytes ∈ es.map Entry.encode, Rlp.IsItem bytes := by
        intro es bytes hbytes
        obtain ⟨entry, _, rfl⟩ := List.mem_map.mp hbytes
        exact entry_isItem entry
      have hmap := Rlp.flatten_inj (hitems entries) (hitems others) hflat
      exact List.map_injective_iff.mpr (fun _ _ => entry_encode_inj) hmap

variable {lib : BlobLibs} {blobs : List Bytes}

/-- Accepted blobs have one entry for each trusted hash, with a header of that hash. -/
theorem entries_of_verifyBlobs {hashes versionedHashes : List B256}
    (h : verifyBlobs lib blobs hashes = .ok versionedHashes) :
    ∃ payload entries, decodeBlobPayload lib.decompress blobs = .ok payload ∧
      HasEntries payload entries ∧
      entries.map (fun entry => lib.keccak256 entry.header) = hashes := by
  obtain ⟨payload, hdecode, hyields, _⟩ := verifyBlobs_ok_iff.mp h
  rcases BlockIter.yields_iterBlocks.mp hyields with ⟨rfl, hviews⟩ | ⟨entries, hlt, rfl, hviews⟩
  · refine ⟨[], [], hdecode, .inl ⟨rfl, rfl⟩, ?_⟩
    rw [List.map_eq_nil_iff.mp hviews, List.map_nil]
  · refine ⟨_, entries, hdecode, .inr ⟨rfl, hlt⟩, ?_⟩
    have hhashes := congrArg (List.map BlockView.blockHash) hviews
    rw [List.map_map, List.map_map] at hhashes
    rw [← List.map_id hashes]
    exact hhashes.symm

/-- Blobs that are accepted for executed blocks have exactly one entry for each of
them, in order, which begins with the header of the block. Transactions behind the
header are those of the block if they have the transactions root of the header;
this is not checked. -/
theorem verified_blobs_bind_headers {blocks : List ExecutedBlock} {versionedHashes : List B256}
    (hcommitted : ∀ block ∈ blocks, block.Committed lib.keccak256)
    (hempty : lib.keccak256 [Mpt.EMPTY_STRING_CODE] = Mpt.EMPTY_ROOT)
    (hverify : verifyBlobs lib blobs
      (blocks.map fun block => block.header.hashSlow lib.keccak256) = .ok versionedHashes) :
    ∃ payload entries, decodeBlobPayload lib.decompress blobs = .ok payload ∧
      HasEntries payload entries ∧ entries.length = blocks.length ∧
      (Set.InjOn lib.keccak256 {bytes | bytes ∈ entries.map Entry.header ++
          blocks.map fun block => block.header.encode} →
        entries.map Entry.header = blocks.map fun block => block.header.encode) ∧
      ∀ entry block txs, (entry, block) ∈ entries.zip blocks → Carries entry txs →
        Mpt.ValidTransactions txs →
        Mpt.transactionsRoot lib.keccak256 txs = block.header.transactionsRoot →
        Set.InjOn lib.keccak256
          {encoded | encoded ∈ (Mpt.orderedTrie txs).encodings lib.keccak256 ++
          (Mpt.orderedTrie block.transactions).encodings lib.keccak256} →
        txs = block.transactions := by
  obtain ⟨payload, entries, hdecode, hentries, hhashes⟩ := entries_of_verifyBlobs hverify
  refine ⟨payload, entries, hdecode, hentries, ?_, ?_, ?_⟩
  · simpa using congrArg List.length hhashes
  · intro hinj
    refine map_inj_of_injOn hinj ?_
    rw [List.map_map, List.map_map]
    exact hhashes
  · intro entry block txs hmem _ htxs hroot hinj
    obtain ⟨hvalid, hblock⟩ := hcommitted block (List.of_mem_zip hmem).2
    exact Mpt.transactionsRoot_inj htxs hvalid hempty hinj (hroot.trans hblock)

section Sample

/-- A header with everything but these fields as in an empty chain. -/
def sampleHeader (number : UInt64) (parentHash transactionsRoot : B256) : Header where
  parentHash := parentHash
  ommersHash := .ofNat 0x1dcc4de8dec75d7aab85b567b6ccd41ad312451b948a7413f0a142fd40d49347
  beneficiary := .zero 20
  stateRoot := Mpt.EMPTY_ROOT
  transactionsRoot := transactionsRoot
  receiptsRoot := Mpt.EMPTY_ROOT
  logsBloom := .zero 256
  difficulty := 0
  number := number
  gasLimit := 30000000
  gasUsed := 0
  timestamp := 1700000000 + number
  extraData := []
  mixHash := .zero
  nonce := .zero 8
  baseFeePerGas := some 1000000000
  withdrawalsRoot := some Mpt.EMPTY_ROOT
  blobGasUsed := none
  excessBlobGas := none
  parentBeaconBlockRoot := none
  requestsHash := none
  blockAccessListHash := none
  slotNumber := none

/-- A signed transfer. -/
def sampleTx : Bytes :=
  beBytes 32 0xf86c098504a817c8008252089435353535353535353535353535353535353535 ++
    beBytes 32 0x35880de0b6b3a76400008025a028ef61340bd939bc2195fe537567866003e1a1 ++
    beBytes 32 0x5d3c71ff63e1590620aa636276a067cbe9d8997f761aecb703304b3800ccf555 ++
    beBytes 14 0xc9f3dc64214b297fb1966a3b6d83

/-- A block with one transaction. -/
def firstBlock : ExecutedBlock where
  header := sampleHeader 1 .zero
    (.ofNat 0x36cf58bec935fe50593ac7443cb728dd37dedac603d60fddfae59fd3bdbfcd7f)
  transactions := [sampleTx]

def firstHash : B256 := .ofNat 0xed6c2f8142830215ba636f1f9167ea0a6a2bc2f687dab80bc449a76feab77810

/-- A block without transactions on top of it. -/
def secondBlock : ExecutedBlock where
  header := sampleHeader 2 firstHash Mpt.EMPTY_ROOT
  transactions := []

def secondHash : B256 := .ofNat 0xd8e2b088f5970813ee106ecc426ddced049e40419b52d66270dfba50683a3b60

/-- Keccak-256 of the headers and of the trie with the transaction. -/
def sampleDigests : List (Bytes × B256) :=
  [([Mpt.EMPTY_STRING_CODE], Mpt.EMPTY_ROOT),
    (Rlp.encodeList [Rlp.encodeBytes [0x20, 0x80], Rlp.encodeBytes sampleTx],
      .ofNat 0x36cf58bec935fe50593ac7443cb728dd37dedac603d60fddfae59fd3bdbfcd7f),
    (firstBlock.header.encode, firstHash), (secondBlock.header.encode, secondHash)]

theorem sampleHeader_isList {number : UInt64} {parentHash root : B256}
    (h : (sampleHeader number parentHash root).items.flatten.length < 2 ^ 64) :
    IsList (sampleHeader number parentHash root).encode :=
  ⟨_, h, rfl⟩

theorem firstBlock_committed : firstBlock.Committed (tableHash sampleDigests) := by
  refine ⟨⟨?_, ?_, ?_⟩, by decide +kernel⟩
  · simp [firstBlock, sampleTx, beBytes]
  · simp [firstBlock, sampleTx]
  · simp [firstBlock]

theorem secondBlock_committed : secondBlock.Committed (tableHash sampleDigests) := by
  refine ⟨⟨?_, ?_, ?_⟩, by decide +kernel⟩
  · simp [secondBlock]
  · simp [secondBlock]
  · simp [secondBlock]

/-- The header of the first block with an empty list of transactions. -/
def substituted : List FetchedBlock := [⟨firstBlock.header.encode, []⟩]

def substitutedCompressed : Bytes :=
  beBytes 32 0x1b240200649efde5c7eb67a46b97200e525a2223a426336e0df2808b7f21e644 ++
    beBytes 32 0xa53425da15d818038f8dd9d1e513627f428c4f88d20cac60336dd3f67abd1298 ++
    beBytes 32 0xd2973f143dbc79483e40eb28e525c998b716f5aff2b0cc50fe31b066af570681 ++
    beBytes 32 0xb2e9d9f99fab7b2e9dfd48f237de526a120666c130eed043f820ab99bfe333bd ++
    beBytes 32 0xc6fb73fa8a57b4d211ce95e0fa7c193e465c7d3d351d4ccd6c657add18081096 ++
    beBytes 23 0x05e6816b0b59597991eeef60564e1621e6496ad7336116

def substitutedLibs : BlobLibs :=
  knownLibs sampleDigests (encodeBatchPayload substituted) substitutedCompressed
    (beBytes 32 0x8de18bc357afd010f4a9717b39ede6e7f9848937a81b687c2de57302b6416d7a ++
      beBytes 16 0x45ea0543b0f715df65714aad78bc3724)
    (.ofNat 0xfcfc547083a5a724013bb010d09316b38fc94303f051063282630b6c276cf6d4)

theorem substituted_lists : ∀ block ∈ substituted, IsList block.headerRlp := by
  simp only [substituted, List.mem_singleton, forall_eq]
  exact sampleHeader_isList (by decide +kernel)

theorem substituted_size : (encodeBatchPayload substituted).length < 2 ^ 64 := by decide +kernel

/-- The blob without the transaction is accepted for the block with it. -/
theorem substituted_transactions_accepted :
    firstBlock.Committed substitutedLibs.keccak256 ∧
      Set.InjOn substitutedLibs.keccak256 {bytes | bytes ∈ sampleDigests.map Prod.fst} ∧
      (∃ versionedHashes, verifyBlobs substitutedLibs (blobsOf substitutedCompressed)
        [firstBlock.header.hashSlow substitutedLibs.keccak256] = .ok versionedHashes) ∧
      ∀ payload entries,
        decodeBlobPayload substitutedLibs.decompress (blobsOf substitutedCompressed) = .ok payload →
        HasEntries payload entries →
        ∃ entry, entries = [entry] ∧ Carries entry [] ∧ ¬Carries entry firstBlock.transactions := by
  have hbrotli : ∀ n, substitutedLibs.decompress (substitutedCompressed ++ List.replicate n 0x00) =
      .ok (encodeBatchPayload substituted) := knownLibs_decompress
  refine ⟨firstBlock_committed, injOn_tableHash (by decide +kernel) (fun _ h => h), ?_, ?_⟩
  · obtain ⟨versionedHashes, _, hverify⟩ := verifyBlobs_built substituted_lists substituted_size
      hbrotli (knownLibs_commitment (by
        simp only [substitutedCompressed, List.length_append, beBytes_length]
        decide))
    exact ⟨versionedHashes, hverify⟩
  · intro payload entries hdecode hentries
    obtain rfl : encodeBatchPayload substituted = payload :=
      Except.ok.inj ((decodeBlobPayload_blobsOf hbrotli).symm.trans hdecode)
    obtain ⟨others, hheaders, hrests, hlt, hpayload⟩ :=
      encodeBatchPayload_entries substituted_lists substituted_size
    obtain rfl := hentries.unique (.inr ⟨hpayload, hlt⟩)
    obtain ⟨entry, rfl⟩ : ∃ entry, entries = [entry] := by
      apply List.length_eq_one_iff.mp
      simpa [substituted] using congrArg List.length hheaders
    have hrest : entry.rest = Rlp.encodeList [] := by
      simpa [substituted, FetchedBlock.txsList] using hrests
    refine ⟨entry, rfl, hrest, ?_⟩
    rw [Carries, hrest]
    decide +kernel

/-- Both blocks as they are. -/
def linked : List FetchedBlock :=
  [⟨firstBlock.header.encode, firstBlock.transactions⟩,
    ⟨secondBlock.header.encode, secondBlock.transactions⟩]

def linkedCompressed : Bytes :=
  beBytes 32 0x1bb7040064406ea681e605516e70ae310fab4e34800c3e4e030e3cd032f8c0b2 ++
    beBytes 32 0x37110e1d57eb91974f48eb2728e11344500098020b8866942ef6c68dfcaba35a ++
    beBytes 32 0x6dda6656f097d1a50852e23d311e0ac57f45579265526e345881f605090ec18c ++
    beBytes 32 0x56d97f84d459d2c087b381ec0141a663ed00d09ca5f5d8a285ac807b5eb76f92 ++
    beBytes 32 0xeb4f558f7f5c52b09d7697676f6b0cbc86b2fb759abfdcdb3f1b92d37502010a ++
    beBytes 32 0x160a8c044e0e8786465a693c0243ebe458292305b2a66a4af4e1dae1fce10817 ++
    beBytes 32 0x05a9c0990084abc3a670d95c2cd2415b73b92500104a55407b6fc689b0c9d743 ++
    beBytes 32 0x96faa7e165136d0a3e2c341274fbb738d48326adb230f72eb099bedcc80cf1c6 ++
    beBytes 32 0xbf6907b32af002665eb5269f772cc914e8421ad3ec059c223e41246ff996b78e ++
    beBytes 32 0x2c61e21120ac2e0b1792449b2b787b86a1b798ad0e8411b97297ab765f54c82e ++
    beBytes 8 0x8d8f00da05020d00

def linkedCommitment : Bytes :=
  beBytes 32 0xb2e601cdb0daa5a1a02e64f3df4088a990b2f165932848d7d424cea67173bde8 ++
    beBytes 16 0x7f7feb287b86a11aecf78f64a73fb57f

def linkedLibs : BlobLibs :=
  knownLibs sampleDigests (encodeBatchPayload linked) linkedCompressed
    linkedCommitment (.ofNat 0x4e1437a7eb0327521a86f2bb5b99eb5ca850845ad26ed3af397b4ed0430b10ad)

theorem linked_lists : ∀ block ∈ linked, IsList block.headerRlp := by
  simp only [linked, List.mem_cons, List.not_mem_nil, or_false, forall_eq_or_imp, forall_eq]
  exact ⟨sampleHeader_isList (by decide +kernel), sampleHeader_isList (by decide +kernel)⟩

theorem linked_size : (encodeBatchPayload linked).length < 2 ^ 64 := by decide +kernel

theorem linked_verified : ∃ versionedHashes, verifyBlobs linkedLibs (blobsOf linkedCompressed)
    ([firstBlock, secondBlock].map fun block => block.header.hashSlow linkedLibs.keccak256) =
      .ok versionedHashes := by
  have hbrotli : ∀ n, linkedLibs.decompress (linkedCompressed ++ List.replicate n 0x00) =
      .ok (encodeBatchPayload linked) := knownLibs_decompress
  obtain ⟨versionedHashes, _, hverify⟩ := verifyBlobs_built linked_lists linked_size hbrotli
    (knownLibs_commitment (by
      simp only [linkedCompressed, List.length_append, beBytes_length]
      decide))
  exact ⟨versionedHashes, hverify⟩

/-- Both headers are found in the blob with both blocks. -/
theorem verified_blobs_bind_headers_linked :
    ∃ payload entries, decodeBlobPayload linkedLibs.decompress (blobsOf linkedCompressed) =
        .ok payload ∧ HasEntries payload entries ∧ entries.length = 2 := by
  obtain ⟨versionedHashes, hverify⟩ := linked_verified
  have hcommitted : ∀ block ∈ [firstBlock, secondBlock], block.Committed linkedLibs.keccak256 := by
    simp only [List.mem_cons, List.not_mem_nil, or_false, forall_eq_or_imp, forall_eq]
    exact ⟨firstBlock_committed, secondBlock_committed⟩
  obtain ⟨payload, entries, hdecode, hentries, hlength, _⟩ :=
    verified_blobs_bind_headers hcommitted (by decide +kernel) hverify
  exact ⟨payload, entries, hdecode, hentries, hlength⟩

end Sample

end FluentStf.Nitro
