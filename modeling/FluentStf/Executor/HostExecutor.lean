import FluentStf.Executor.ExExDb
import FluentStf.Executor.Replay
import FluentStf.Executor.Soundness

/-! The executor of the host. It executes a block on its database and makes the input for the
client from what was recorded. What the client needs is all there, with one exception: of an
account that was touched but none of whose slots were, the proof does not show the storage root. -/
namespace FluentStf.Executor

open Mpt RecordingDb

/-- The libraries as the host uses them: the bloom filter over the logs of all receipts, and the
reader of RLP items, which reads back what was encoded. -/
structure HostConfig (Body Output Failure : Type) extends EvmConfig Body Output Failure where
  logsBloom : Output → FixedBytes 256
  reader : RlpReader
  readsBack : reader.ReadsBack

/-- Why the host makes no input for a block. -/
inductive HostError (Failure : Type) where
  | ExpectedBlock (number : UInt64)
  | FailedToRecoverSenders
  | consensus (e : Failure)
  | BlockExecutionError (e : Failure)
  | db (e : ExExError)
  | StateRootMismatch (found expected : B256)
  | HeaderMismatch (found expected : B256)
  | panic

theorem ancestorHeaders_length {db : ExExDb} {headers : List Header}
    (h : db.ancestorHeaders = .ok headers) : headers.length < 2 ^ 64 := by
  rw [ExExDb.ancestorHeaders] at h
  split_ifs at h
  · rw [bind_eq_ok] at h
    obtain ⟨header, -, hheaders⟩ := h
    cases hheaders
    exact Nat.one_lt_two_pow (by decide)
  · have hlength := (mapM_eq_ok.mp h).length_eq
    rw [List.length_reverse, ExExDb.heights, List.length_map, List.length_range'] at hlength
    have hnumber := db.blockNumber.toNat_lt
    omega

/-- The headers for the client, as many as a vector can have. -/
def RecordingDb.ancestors (db : RecordingDb) :
    Except RpcDbError { headers : List Header // headers.length < 2 ^ 64 } :=
  match h : db.ancestorHeaders with
  | .error e => .error e
  | .ok headers => .ok ⟨headers, ancestorHeaders_length h⟩

section

variable {Body Output Failure : Type} (config : HostConfig Body Output Failure)
  (keccak : Bytes → B256)

/-- The block on the recording database. -/
def executeRecording (db : RecordingDb) (block : Block Body) :
    Except (HostError Failure) (Output × RecordingDb) :=
  match config.execute databaseRef block db with
  | .error e => .error (.db e)
  | .ok (.error e, _) => .error (.BlockExecutionError e)
  | .ok (.ok output, db) => .ok (output, db)

def verifyHeaderHash (derived original : Header) : Except (HostError Failure) Unit :=
  require (derived.hashSlow keccak = original.hashSlow keccak)
    (.HeaderMismatch (derived.hashSlow keccak) (original.hashSlow keccak))

/-- Execute a block on the state with the given root and make the input for the client. -/
def executeOn (fuel : Nat) (blockNumber : UInt64) (block : Block Body) (parentStateRoot : B256)
    (factory : ProviderFactory) : Except (HostError Failure) (ClientInput Body) := do
  let start ← (new factory blockNumber block.header.parentHash
    parentStateRoot).mapError .db
  require (config.tryIntoRecovered block = true) .FailedToRecoverSenders
  (config.validateHeader (sealSlow keccak block.header)).mapError .consensus
  let (output, db) ← executeRecording config start block
  (config.validateBlockPostExecution block output).mapError .consensus
  let state ← (db.state keccak config.reader fuel (config.hashedPostState output)).mapError .db
  let verification ← (state.update keccak (config.hashedPostState output)).mapError fun _ => .panic
  require (verification.stateRoot keccak = block.header.stateRoot)
    (.StateRootMismatch (verification.stateRoot keccak) block.header.stateRoot)
  let ancestors ← db.ancestors.mapError fun e => .db (.block e)
  verifyHeaderHash keccak (deriveHeader block.header (verification.stateRoot keccak)
    (config.logsBloom output)) block.header
  return {
    currentBlock := block.header
    ancestorHeaders := ancestors.1
    length_lt := ancestors.2
    body := block.body
    parentState := state
    bytecodes := db.bytecodes }

/-- A block that was handed over with the root of the state before it. -/
def executeExexWithBlock (fuel : Nat) (block : Block Body) (parentStateRoot : B256)
    (factory : ProviderFactory) : Except (HostError Failure) (ClientInput Body) :=
  executeOn config keccak fuel block.header.number block parentStateRoot factory

def expectBlockAt (number : UInt64) :
    Except String (Option (Block Body)) → Except (HostError Failure) (Block Body)
  | .ok (some block) => .ok block
  | _ => .error (.ExpectedBlock number)

/-- A block that is fetched together with the one before it. -/
def executeExex (fuel : Nat) (blockNumber : UInt64)
    (blockByNumber : UInt64 → Except String (Option (Block Body))) (factory : ProviderFactory) :
    Except (HostError Failure) (ClientInput Body) := do
  let currentBlock ← expectBlockAt blockNumber (blockByNumber blockNumber)
  let previousBlock ← expectBlockAt (blockNumber - 1) (blockByNumber (blockNumber - 1))
  executeOn config keccak fuel blockNumber currentBlock previousBlock.header.stateRoot factory

/-- One of the two ways in which the host makes an input for a block: the block is handed over, or
it is fetched by its number. -/
inductive Makes (fuel : Nat) (block : Block Body) (parentStateRoot : B256)
    (factory : ProviderFactory) (input : ClientInput Body) : Prop
  | handed (h : executeExexWithBlock config keccak fuel block parentStateRoot factory = .ok input)
  | fetched {blockByNumber : UInt64 → Except String (Option (Block Body))} {previous : Block Body}
      (hblock : blockByNumber block.header.number = .ok (some block))
      (hprevious : blockByNumber (block.header.number - 1) = .ok (some previous))
      (hroot : previous.header.stateRoot = parentStateRoot)
      (h : executeExex config keccak fuel block.header.number blockByNumber factory = .ok input)

/-- The block runs on the node of the host, with this output and these records. -/
def Records (block : Block Body) (parentStateRoot : B256) (factory : ProviderFactory)
    (output : Output) (db : RecordingDb) : Prop :=
  ∃ start, new factory block.header.number block.header.parentHash parentStateRoot =
      .ok start ∧
    config.execute databaseRef block start = .ok (.ok output, db)

end

section

variable {Body Output Failure : Type} {config : HostConfig Body Output Failure}
  {keccak : Bytes → B256}

/-- What an execution of the host that succeeds went through. -/
structure HostExecuted (config : HostConfig Body Output Failure) (keccak : Bytes → B256)
    (fuel : Nat) (blockNumber : UInt64) (block : Block Body) (parentStateRoot : B256)
    (factory : ProviderFactory) (input : ClientInput Body) (start db : RecordingDb)
    (output : Output) (state : EthereumState) : Prop where
  new : new factory blockNumber block.header.parentHash parentStateRoot = .ok start
  recovered : config.tryIntoRecovered block = true
  header : config.validateHeader (sealSlow keccak block.header) = .ok ()
  run : config.execute databaseRef block start = .ok (.ok output, db)
  post : config.validateBlockPostExecution block output = .ok ()
  witness : db.state keccak config.reader fuel (config.hashedPostState output) =
    .ok input.parentState
  update : input.parentState.update keccak (config.hashedPostState output) = .ok state
  root : state.stateRoot keccak = block.header.stateRoot
  ancestors : db.ancestorHeaders = .ok input.ancestorHeaders
  hash : (deriveHeader block.header block.header.stateRoot (config.logsBloom output)).hashSlow
    keccak = block.header.hashSlow keccak
  block : input.block = block
  bytecodes : input.bytecodes = db.bytecodes

variable {block : Block Body}

theorem Makes.executeOn {fuel : Nat} {parentStateRoot : B256} {factory : ProviderFactory}
    {input : ClientInput Body} (h : Makes config keccak fuel block parentStateRoot factory input) :
    executeOn config keccak fuel block.header.number block parentStateRoot factory = .ok input := by
  cases h with
  | handed h => exact h
  | fetched hblock hprevious hroot h =>
      rw [executeExex, hblock, hprevious] at h
      exact hroot ▸ h

theorem executeRecording_eq_ok {start db : RecordingDb} {output : Output} :
    executeRecording config start block = .ok (output, db) ↔
      config.execute databaseRef block start = .ok (.ok output, db) := by
  rw [executeRecording]
  split
  · next h => simp [h]
  · next h => simp [h]
  · next h => simp [h]

theorem ancestors_eq_ok {db : RecordingDb}
    {headers : { headers : List Header // headers.length < 2 ^ 64 }}
    (h : db.ancestors = .ok headers) : db.ancestorHeaders = .ok headers.1 := by
  rw [ancestors] at h
  split at h
  · cases h
  · next hheaders =>
      cases h
      exact hheaders

theorem hostExecuted_of_ok {fuel : Nat} {blockNumber : UInt64} {parentStateRoot : B256}
    {factory : ProviderFactory} {input : ClientInput Body}
    (h : executeOn config keccak fuel blockNumber block parentStateRoot factory = .ok input) :
    ∃ start db output state, HostExecuted config keccak fuel blockNumber block parentStateRoot
      factory input start db output state := by
  simp only [executeOn, verifyHeaderHash, bind_eq_ok, mapError_eq_ok, require_eq_ok] at h
  obtain ⟨start, hnew, _, hrecovered, _, hheader, ⟨output, db⟩, hrun, _, hpost, witness, hwitness,
    state, hupdate, _, hroot, ancestors, hancestors, _, hhash, hinput⟩ := h
  cases hinput
  rw [hroot] at hhash
  exact ⟨start, db, output, state, hnew, hrecovered, hheader, executeRecording_eq_ok.mp hrun, hpost,
    hwitness, hupdate, hroot, ancestors_eq_ok hancestors, hhash, rfl, rfl⟩

end

/-- The node before the block: it has the accounts, slots and codes of a world and proves them
from the tries that hold it. -/
structure StateProvider.Serves (keccak : Bytes → B256) (provider : StateProvider) (world : World)
    (F : EthereumState) : Prop where
  account : ∀ address found, provider.basicAccount address = .ok found →
    found.map (fun account => ⟨account.nonce, account.balance, account.getBytecodeHash⟩) =
      world.account (hashAddress keccak address)
  codeHash : ∀ address account, world.account address = some account →
    account.codeHash ≠ B256.zero
  code : ∀ address account, world.account address = some account → ∀ found,
    provider.bytecodeByHash account.codeHash = .ok found →
      codeHashSlow keccak (found.getD []) = account.codeHash
  emptyCode : ∀ found, provider.bytecodeByHash KECCAK_EMPTY = .ok found → found.getD [] = []
  storage : ∀ address index found,
    provider.storage address ⟨beBytes 32 index.val, beBytes_length ..⟩ = .ok found →
      found.getD 0 = world.slot (hashAddress keccak address) (hashIndex keccak index)
  before : ∀ targets proof, provider.multiproof ⟨[], []⟩ targets = .ok proof →
    IsMultiproof keccak F targets proof

/-- After the changes there are complete tries again, whose nodes have other hashes. -/
def StateProvider.ProvesAfter (keccak : Bytes → B256) (provider : StateProvider) (F : EthereumState)
    (post : HashedPostState) : Prop :=
  ∀ targets proof, provider.multiproof post targets = .ok proof →
    ∃ F', Complete keccak F' ∧ IsMultiproof keccak F' targets proof ∧
      Set.InjOn keccak (hashedEncodings keccak F F' proof)

section Answers

variable {keccak : Bytes → B256} {provider : StateProvider} {world : World} {F : EthereumState}
  {address : Address}

/-- An account is handed out with the code that its hash is the hash of. -/
theorem StateProvider.Serves.accountInfo (h : provider.Serves keccak world F)
    {info : Option AccountInfo} (hinfo : accountInfo provider address = .ok info) :
    info.map AccountInfo.basics = world.account (hashAddress keccak address) ∧
      ∀ found, info = some found → ∃ code, found.code = some code ∧
        codeHashSlow keccak code = found.codeHash ∧ found.codeHash ≠ B256.zero ∧
        ∃ bytecode, provider.bytecodeByHash found.codeHash = .ok bytecode ∧
          bytecode.getD [] = code := by
  simp only [RecordingDb.accountInfo, bind_eq_ok, mapError_eq_ok] at hinfo
  obtain ⟨account, haccount, hrest⟩ := hinfo
  have hworld := h.account address account haccount
  cases account with
  | none =>
      cases hrest
      exact ⟨hworld, by simp⟩
  | some account =>
      have hzero := h.codeHash _ _ hworld.symm
      simp only [if_neg hzero, bind_eq_ok, mapError_eq_ok] at hrest
      obtain ⟨bytecode, hbytecode, hresult⟩ := hrest
      cases hresult
      refine ⟨hworld, ?_⟩
      rintro _ ⟨⟩
      exact ⟨_, rfl, h.code _ _ hworld.symm bytecode hbytecode, hzero, bytecode, hbytecode, rfl⟩

theorem StateProvider.Serves.storageAt (h : provider.Serves keccak world F) {index value : U256}
    (hvalue : storageAt provider address index = .ok value) :
    value = world.slot (hashAddress keccak address) (hashIndex keccak index) := by
  simp only [RecordingDb.storageAt, bind_eq_ok, mapError_eq_ok] at hvalue
  obtain ⟨found, hfound, hresult⟩ := hvalue
  cases hresult
  exact h.storage address index found hfound

variable {context : DbContext} {blockNumber : UInt64} {db : RecordingDb}

/-- The codes for the client are found under their hashes. -/
theorem bytecodesByHash_recorded (hdb : RecordingDb.Faithful context blockNumber db)
    (hserves : context.beforeProvider.Serves keccak world F)
    {info : AccountInfo}
    (hinfo : accountInfo context.beforeProvider address = .ok (some info))
    (hmem : address ∈ db.accounts) (hempty : info.codeHash ≠ KECCAK_EMPTY) {code : Bytes}
    (hcode : info.code = some code) :
    bytecodesByHash keccak db.bytecodes info.codeHash = some code := by
  -- The code of a recorded account is what the provider has for its hash.
  have hsource : ∀ found, some found ∈ db.accounts.entries.map (fun entry => entry.2) →
      ∃ code, found.code = some code ∧ codeHashSlow keccak code = found.codeHash ∧
        found.codeHash ≠ B256.zero ∧
        ∃ bytecode, context.beforeProvider.bytecodeByHash found.codeHash = .ok bytecode ∧
          bytecode.getD [] = code := by
    intro found hfound
    obtain ⟨⟨other, _⟩, hentry, rfl⟩ := List.mem_map.mp hfound
    exact (hserves.accountInfo
      (hdb.infos other _ (AList.mem_lookup_iff.mpr hentry))).2 found rfl
  have hsame : ∀ found, some found ∈ db.accounts.entries.map (fun entry => entry.2) →
      found.codeHash = info.codeHash → found.code = some code := by
    intro found hfound hhash
    obtain ⟨code', hcode', -, -, bytecode', hbytecode', rfl⟩ := hsource found hfound
    obtain ⟨code'', hcode'', -, -, bytecode, hbytecode, rfl⟩ :=
      (hserves.accountInfo hinfo).2 info rfl
    rw [hhash, hbytecode] at hbytecode'
    cases hbytecode'
    rw [hcode', ← hcode'', hcode]
  have hvalue : some info ∈ db.accounts.entries.map (fun entry => entry.2) := by
    obtain ⟨found, hfound⟩ := Option.isSome_iff_exists.mp (AList.lookup_isSome.mpr hmem)
    have hrecorded := hdb.infos address found hfound
    rw [hinfo] at hrecorded
    cases hrecorded
    exact List.mem_map.mpr ⟨_, AList.mem_lookup_iff.mp hfound, rfl⟩
  obtain ⟨code', hcode', hslow, hzero, -⟩ := hsource info hvalue
  rw [hcode] at hcode'
  cases hcode'
  obtain ⟨other, hother, hhash, hcodes⟩ :=
    exists_mem_uniqueCodes hvalue hempty hzero List.not_mem_nil
  rw [← hslow]
  refine bytecodesByHash_of_mem (hcodes code (hsame other hother hhash)) fun other' hother' he => ?_
  obtain ⟨found, hfound, hfoundCode, -⟩ := exists_of_mem_uniqueCodes hother'
  obtain ⟨code'', hcode'', hslow'', -⟩ := hsource found hfound
  rw [hfoundCode] at hcode''
  cases hcode''
  have := hsame found hfound (by rw [← hslow'', he, hslow])
  rw [hfoundCode] at this
  exact Option.some.inj this

end Answers

section Hashes

variable {keccak : Bytes → B256} {provider : Provider} {current : Header} {chain : Nat → Header}

/-- The client finds the hashes of all blocks that the host was asked for, in headers that start
with the parent of the block. -/
theorem Provider.Serves.clientHashes (h : provider.Serves keccak current chain)
    (hpos : 1 ≤ current.number.toNat) {db : ExExDb} (hdb : db.providerFactory = provider)
    (hnumber : db.blockNumber = current.number) {input : ClientExecutorInput}
    (hcurrent : input.currentBlock = current)
    (hheaders : db.ancestorHeaders = .ok input.ancestorHeaders) :
    input.ancestorHeaders.head? = some (chain (current.number.toNat - 1)) ∧
      ∃ blockHashes, input.blockHashes keccak = .ok blockHashes ∧
        ∀ number < current.number, db.oldestAncestor.toNat ≤ number.toNat →
          blockHashes number = some ((chain number.toNat).hashSlow keccak) := by
  obtain ⟨oldest, holdest, hexact, hlist⟩ := h.ancestorHeaders hpos hdb hnumber
  rw [hheaders] at hlist
  have hancestors := Except.ok.inj hlist
  have hsealed : input.sealedHeaders keccak =
      (List.range (current.number.toNat - oldest + 1)).map fun k =>
        sealSlow keccak (chain (current.number.toNat - k)) := by
    rw [ClientExecutorInput.sealedHeaders, hcurrent, hancestors, List.range_succ_eq_map,
      List.map_cons, List.map_cons, Nat.sub_zero, h.top, List.map_map, List.map_map]
    refine congrArg _ (List.map_congr_left fun k _ => ?_)
    simp only [Function.comp_apply, Nat.succ_eq_add_one, Nat.sub_sub, Nat.add_comm]
  constructor
  · rw [hancestors, List.head?_map, List.head?_range, if_neg (by omega)]
    rfl
  · refine ⟨_, checkHeaders_eq_ok.mpr ⟨?_, rfl⟩, fun number hlt hold => ?_⟩
    · rw [hsealed]
      exact h.isChain (Nat.sub_le _ _)
    · rw [hsealed]
      have hbelow := UInt64.lt_iff_toNat_lt.mp hlt
      exact h.recordHashes (by rw [hexact (by omega)]; exact hold) hlt

end Hashes

/-- The EVM knows the hashes of earlier blocks only. -/
def Request.Below (number : UInt64) : Request → Prop
  | .blockHash asked => asked < number
  | _ => True

section Replay

variable {keccak : Bytes → B256} {world : World} {accounts : B256 → Option TrieAccount}
  {F : EthereumState} {context : DbContext} {blockNumber : UInt64}

/-- What the client has for a run of the host that ended with the given records. -/
structure Replayable (keccak : Bytes → B256) (F : EthereumState) (context : DbContext)
    (blockNumber : UInt64) (last : RecordingDb) (state : EthereumState)
    (blockHashes : BlockHashes) : Prop where
  recorded : RecordingDb.Faithful context blockNumber last
  account : ∀ address ∈ last.accounts, state.stateTrie.getRlp (hashAddress keccak address).bytes =
    F.stateTrie.getRlp (hashAddress keccak address).bytes
  slot : ∀ address ∈ last.accounts, ∀ index ∈ last.slotsOf address, ∃ trie,
    state.storageTries (hashAddress keccak address) = some trie ∧
      trie.get (hashIndex keccak index).bytes =
        (F.storageTrie (hashAddress keccak address)).get (hashIndex keccak index).bytes
  hash : ∀ number hash, number < blockNumber → last.oldestAncestor.toNat ≤ number.toNat →
    expectBlock number (context.factory.blockHash number) = .ok hash →
      blockHashes number = some hash

variable {last : RecordingDb} {state : EthereumState} {blockHashes : BlockHashes}

/-- The client loads an account that was recorded as the host did, without its code. -/
theorem Replayable.basicRef (h : Replayable keccak F context blockNumber last state blockHashes)
    (hserves : context.beforeProvider.Serves keccak world F)
    (hworld : world.HeldBy keccak accounts F) {address : Address} {info : Option AccountInfo}
    (hinfo : accountInfo context.beforeProvider address = .ok info)
    (hmem : address ∈ last.accounts) {codes : B256 → Option Bytes} :
    (TrieDB.mk state blockHashes codes).basicRef keccak address =
      some (info.map fun found => { found with code := none }) := by
  have hread := (h.account address hmem).trans (getRlp_accounts hworld.state _)
  have hbasics := (hworld.stored.basics (hashAddress keccak address)).trans
    (hserves.accountInfo hinfo).1.symm
  rw [TrieDB.basicRef]
  simp only [hread]
  cases haccount : accounts (hashAddress keccak address) with
  | none =>
      rw [haccount] at hbasics
      cases info with
      | none => rfl
      | some info => cases hbasics
  | some account =>
      rw [haccount] at hbasics
      cases info with
      | none => cases hbasics
      | some info =>
          simp only [Option.map_some, Option.some.injEq, AccountBasics.ofTrie, AccountInfo.basics,
            AccountBasics.mk.injEq] at hbasics
          simp only [Option.map_some, hbasics]

/-- An answer of the host is repeated by the client. -/
theorem Replayable.answer (h : Replayable keccak F context blockNumber last state blockHashes)
    (hserves : context.beforeProvider.Serves keccak world F)
    (hworld : world.HeldBy keccak accounts F) {request : Request} {start next : RecordingDb}
    {response : Response request} (hbelow : request.Below blockNumber)
    (hstart : RecordingDb.Faithful context blockNumber start)
    (hanswer : RecordingDb.Answered start request response next) (hle : next ≤ last) :
    ((TrieDB.mk state blockHashes (bytecodesByHash keccak last.bytecodes)).databaseRef
      keccak).answer request = some response := by
  have hprovider : start.beforeProvider = context.beforeProvider := by rw [← hstart.setup]
  have hthere : ∀ {address info}, start.recordAccount address info ≤ last →
      address ∈ last.accounts := fun hrecorded =>
    hrecorded.1 _ ((AList.mem_insert _).mpr (.inl rfl))
  cases hanswer with
  | @account address info hinfo =>
      rw [hprovider] at hinfo
      refine Option.bind_eq_some_iff.mpr ⟨_, h.basicRef hserves hworld hinfo (hthere hle), ?_⟩
      rw [Option.map_map]
      rfl
  | @code address info hinfo =>
      rw [hprovider] at hinfo
      refine Option.bind_eq_some_iff.mpr ⟨_, h.basicRef hserves hworld hinfo (hthere hle), ?_⟩
      cases info with
      | none => rfl
      | some info =>
          obtain ⟨code, hcode, -, -, bytecode, hbytecode, hdefault⟩ :=
            (hserves.accountInfo hinfo).2 info rfl
          have hresponse : codeOf (some info) = code := by
            rw [codeOf, Option.bind_some, hcode, Option.getD_some]
          rw [hresponse]
          by_cases hempty : info.codeHash = KECCAK_EMPTY
          · rw [hempty] at hbytecode
            rw [← hdefault, hserves.emptyCode bytecode hbytecode]
            exact if_pos hempty
          · exact (if_neg hempty).trans
              (bytecodesByHash_recorded h.recorded hserves hinfo (hthere hle) hempty hcode)
  | @absent address index hinfo =>
      rw [hprovider] at hinfo
      exact Option.bind_eq_some_iff.mpr ⟨_, h.basicRef hserves hworld hinfo (hthere hle), rfl⟩
  | @slot address index value info hinfo hvalue =>
      rw [hprovider] at hinfo hvalue
      have hmem := hthere (le_trans (le_recordSlot ..) hle)
      refine Option.bind_eq_some_iff.mpr ⟨_, h.basicRef hserves hworld hinfo hmem, ?_⟩
      have hindex : index ∈ last.slotsOf address := by
        refine hle.2.1 address index ?_
        rw [slotsOf_recordSlot, if_pos rfl]
        exact (AList.mem_insert _).mpr (.inl rfl)
      obtain ⟨trie, htrie, hget⟩ := h.slot address hmem index hindex
      rw [(hworld.builds_storageTrie _).get, onWords_bytes] at hget
      obtain ⟨found, hfound, hslot⟩ := MptNode.getRlpU256_slotValue hget
      rw [hserves.storageAt hvalue, ← hslot]
      exact Option.bind_eq_some_iff.mpr ⟨trie, htrie, by rw [hfound]⟩
  | @blockHash number hash hhash =>
      rw [hstart.providerFactory] at hhash
      refine h.hash number hash hbelow ?_ hhash
      refine hle.2.2.trans ?_
      change (min number start.oldestAncestor).toNat ≤ _
      rw [toNat_min]
      exact Nat.min_le_left ..

end Replay

section Accepted

variable {Body Output Failure : Type} {config : HostConfig Body Output Failure}
  {reader : RlpReader} {keccak : Bytes → B256} {world : World}
  {accounts : B256 → Option TrieAccount}
  {F : EthereumState}

/-- The witness comes from two proofs of one provider for the recorded targets. -/
theorem state_eq_ok {db : RecordingDb} {fuel : Nat} {post : HashedPostState}
    {witness : WitnessState} (h : db.state keccak reader fuel post = .ok witness) :
    ∃ provider before after,
      db.factory.beforeProvider db.blockNumber db.parentHash = .ok provider ∧
      provider.multiproof ⟨[], []⟩ (db.getTargets keccak post) = .ok before ∧
      provider.multiproof post (db.getTargets keccak post) = .ok after ∧
      transitionMultiproofsToTries reader keccak fuel db.stateRoot before after =
        .ok witness.toEthereumState := by
  simp only [state, multiproofs, bind_eq_ok, mapError_eq_ok] at h
  obtain ⟨_, ⟨provider, hprovider, before, hbefore, after, hafter, hproofs⟩, hwitness⟩ := h
  cases hproofs
  refine ⟨provider, before, after, hprovider, hbefore, hafter, ?_⟩
  rw [witnessOf] at hwitness
  split at hwitness
  · cases hwitness
  · next htransition =>
      cases hwitness
      exact htransition

variable {blockNumber : UInt64}

theorem new_eq_ok {factory : ProviderFactory} {parentHash stateRoot : B256} {start : RecordingDb}
    (h : new factory blockNumber parentHash stateRoot = .ok start) :
    ∃ provider, factory.beforeProvider blockNumber parentHash = .ok provider ∧
      RecordingDb.Faithful ⟨factory, parentHash, stateRoot, provider⟩ blockNumber start := by
  simp only [new, bind_eq_ok, mapError_eq_ok] at h
  obtain ⟨provider, hprovider, hstart⟩ := h
  cases hstart
  refine ⟨provider, hprovider, rfl, rfl, rfl, fun address info hnone => ?_⟩
  rw [AList.lookup_empty] at hnone
  cases hnone

theorem faithful_of_run {context : DbContext} {block : Block Body} {start last : RecordingDb}
    {result : Except Failure Output} (hstart : RecordingDb.Faithful context blockNumber start)
    (hrun : config.execute databaseRef block start = .ok (result, last)) :
    RecordingDb.Faithful context blockNumber last := by
  rw [config.execute_eq] at hrun
  refine Program.run_invariant (RecordingDb.Faithful context blockNumber) ?_ hstart hrun
  intro request db response next hdb hanswer
  exact (answered hanswer).faithful hdb

/-- A run of the host is repeated on what was made from its records. -/
theorem Replayable.run {context : DbContext} {block : Block Body} {start last : RecordingDb}
    {result : Except Failure Output} {state : EthereumState} {blockHashes : BlockHashes}
    (h : Replayable keccak F context blockNumber last state blockHashes)
    (hserves : context.beforeProvider.Serves keccak world F)
    (hworld : world.HeldBy keccak accounts F)
    (hasks : (config.requests block).Asks (Request.Below blockNumber))
    (hstart : RecordingDb.Faithful context blockNumber start)
    (hrun : config.execute databaseRef block start = .ok (result, last)) :
    config.execute ((TrieDB.mk state blockHashes
      (bytecodesByHash keccak last.bytecodes)).databaseRef keccak) block = some result := by
  rw [config.execute_eq] at hrun ⊢
  refine Program.run_replay (RecordingDb.Faithful context blockNumber) ?_ ?_ hasks hstart hrun
  · intro request db response next hdb hanswer
    have hanswered := answered hanswer
    exact ⟨hanswered.faithful hdb, hanswered.le⟩
  · intro request db response next hallowed hdb hanswer hle
    exact h.answer hserves hworld hallowed hdb (answered hanswer) hle

/-- What the witness of the host shows of the full tries. -/
theorem witness_of_state (hreader : reader.ReadsBack)
    (hempty : keccak [EMPTY_STRING_CODE] = EMPTY_ROOT)
    (hworld : world.HeldBy keccak accounts F) {factory : ProviderFactory}
    {parentHash stateRoot : B256} (hroot : F.stateTrie.hash keccak = stateRoot)
    (hzero : stateRoot ≠ B256.zero) {provider : StateProvider}
    (hprovider : factory.beforeProvider blockNumber parentHash = .ok provider)
    (hserves : provider.Serves keccak world F) {db : RecordingDb}
    (hdb : RecordingDb.Faithful ⟨factory, parentHash, stateRoot, provider⟩ blockNumber db)
    {fuel : Nat} {post : HashedPostState} (hpost : provider.ProvesAfter keccak F post)
    {witness : WitnessState} (h : db.state keccak reader fuel post = .ok witness) :
    BuiltState keccak F (db.getTargets keccak post) witness.toEthereumState ∧
      (∀ address slots slot, (address, slots) ∈ db.getTargets keccak post → slot ∈ slots →
        ∃ trie, witness.storageTries address = some trie ∧
          trie.get slot.bytes = (F.storageTrie address).get slot.bytes) ∧
      witness.stateRoot keccak = stateRoot := by
  obtain ⟨provider', before, after, hprovider', hbefore, hafter, htransition⟩ := state_eq_ok h
  have hfactory : db.factory = factory := congrArg DbContext.factory hdb.setup
  have hhash : db.parentHash = parentHash := congrArg DbContext.parentHash hdb.setup
  have hdbRoot : db.stateRoot = stateRoot := congrArg DbContext.stateRoot hdb.setup
  rw [hfactory, hdb.blockNumber, hhash, hprovider] at hprovider'
  cases hprovider'
  rw [hdbRoot] at htransition
  have hstateRoot := transition_root hzero htransition
  rw [← hroot] at htransition
  obtain ⟨F', hF', hproof', hinj⟩ := hpost _ _ hafter
  have hproved : Proved keccak reader F F' _ before after :=
    ⟨hreader, hempty, hworld.complete, hF', hserves.before _ _ hbefore, hproof', hinj⟩
  refine ⟨hproved.builtState htransition, ?_, hstateRoot⟩
  intro address slots slot htarget hslot
  exact hproved.slot getTargets_nodup htransition htarget hslot

end Accepted

section Replay

variable {Body Output Failure : Type} {config : HostConfig Body Output Failure}
  {keccak : Bytes → B256} {fuel : Nat} {block : Block Body} {parentStateRoot : B256}
  {factory : ProviderFactory} {input : ClientInput Body} {start db : RecordingDb} {output : Output}
  {state : EthereumState} {chain : Nat → Header} {world : World}
  {accounts : B256 → Option TrieAccount} {F : EthereumState} {provider : StateProvider}

/-- The client gets as far as the result of the host's run: the headers of the input start with
the parent and are linked, and on the database behind them the block has the same output. -/
theorem HostExecuted.repeated
    (h : HostExecuted config keccak fuel block.header.number block parentStateRoot factory input
      start db output state)
    (hchain : factory.toProvider.Serves keccak block.header chain)
    (hpos : 1 ≤ block.header.number.toNat) (hworld : world.HeldBy keccak accounts F)
    (hserves : provider.Serves keccak world F)
    (hasks : (config.requests block).Asks (Request.Below block.header.number))
    (hstart : RecordingDb.Faithful ⟨factory, block.header.parentHash, parentStateRoot, provider⟩
      block.header.number start)
    (hbuilt : BuiltState keccak F (db.getTargets keccak (config.hashedPostState output))
      input.parentState.toEthereumState)
    (hslots : ∀ address slots slot,
      (address, slots) ∈ db.getTargets keccak (config.hashedPostState output) → slot ∈ slots →
        ∃ trie, input.parentState.storageTries address = some trie ∧
          trie.get slot.bytes = (F.storageTrie address).get slot.bytes) :
    input.ancestorHeaders.head? = some (chain (block.header.number.toNat - 1)) ∧
      ∃ blockHashes, input.blockHashes keccak = .ok blockHashes ∧
        config.execute ((TrieDB.mk input.parentState.toEthereumState blockHashes
          (bytecodesByHash keccak input.bytecodes)).databaseRef keccak) block =
            some (.ok output) := by
  have hdb := faithful_of_run hstart h.run
  obtain ⟨hhead, blockHashes, hhashes, hfound⟩ := hchain.clientHashes hpos hdb.providerFactory
    hdb.blockNumber (congrArg Block.header h.block) h.ancestors
  have hreplayable : Replayable keccak F
      ⟨factory, block.header.parentHash, parentStateRoot, provider⟩ block.header.number db
      input.parentState.toEthereumState blockHashes := by
    refine ⟨hdb, fun address hmem => ?_, fun address hmem index hindex => ?_, ?_⟩
    · obtain ⟨slots, htarget, -⟩ := exists_target hmem
      exact hbuilt.account _ htarget
    · obtain ⟨slots, htarget, hall⟩ := exists_target hmem
      exact hslots _ _ _ htarget (hall index hindex)
    · intro number hash hlt hold hhash
      have hserved := hchain.hash number.toNat (UInt64.lt_iff_toNat_lt.mp hlt)
      rw [UInt64.ofNat_toNat] at hserved
      rw [hserved] at hhash
      cases hhash
      exact hfound number hlt hold
  refine ⟨hhead, blockHashes, hhashes, ?_⟩
  rw [h.bytecodes]
  exact hreplayable.run hserves hworld hasks hstart h.run

end Replay

/-- When the host makes an input for a block, its own run is repeated by the client on this input,
with the same output. The client accepts the input if and only if every account that was touched
without a slot has no storage, and then it returns a header with the hash of the block and the
bridge hashes of this output. What the node of the host answers and proves is assumed to be true of
the world before the block and of the one after it. -/
theorem host_input_accepted_iff {Body Output Failure : Type}
    (config : HostConfig Body Output Failure) (keccak : Bytes → B256)
    (hempty : keccak [EMPTY_STRING_CODE] = EMPTY_ROOT) (fuel : Nat) (block : Block Body)
    (parentStateRoot : B256) (factory : ProviderFactory) (input : ClientInput Body)
    (hhost : Makes config keccak fuel block parentStateRoot factory input)
    (chain : Nat → Header) (hchain : factory.toProvider.Serves keccak block.header chain)
    (hpos : 1 ≤ block.header.number.toNat)
    (hparent : (chain (block.header.number.toNat - 1)).stateRoot = parentStateRoot)
    (world : World) (accounts : B256 → Option TrieAccount) (F : EthereumState)
    (hworld : world.HeldBy keccak accounts F) (hroot : F.stateTrie.hash keccak = parentStateRoot)
    (hzero : parentStateRoot ≠ B256.zero)
    (hserves : ∀ provider, factory.beforeProvider block.header.number block.header.parentHash =
      .ok provider → provider.Serves keccak world F ∧
        ∀ output db, Records config block parentStateRoot factory output db →
          provider.ProvesAfter keccak F (config.hashedPostState output))
    (hasks : (config.requests block).Asks (Request.Below block.header.number))
    (hbody : config.validateBodyAgainstHeader block.body block.header = .ok ())
    (hancestors : config.validateAncestors (input.sealedHeaders keccak) = .ok ())
    (hheader : ∀ output db, Records config block parentStateRoot factory output db →
      (deriveHeader block.header block.header.stateRoot (config.logsBloom output)).hashSlow keccak =
        block.header.hashSlow keccak →
      (deriveHeader block.header block.header.stateRoot (config.logsBloom output)).encode =
        block.header.encode) :
    ∃ output db, Records config block parentStateRoot factory output db ∧
      (∃ blockHashes, input.blockHashes keccak = .ok blockHashes ∧
        config.execute ((TrieDB.mk input.parentState.toEthereumState blockHashes
          (bytecodesByHash keccak input.bytecodes)).databaseRef keccak) block =
            some (.ok output)) ∧
      ((∃ header hashes, execute config.toEvmConfig keccak input = .ok (header, hashes)) ↔
        ∀ target ∈ db.getTargets keccak (config.hashedPostState output), target.2 = [] →
          (F.storageTrie target.1).hash keccak = EMPTY_ROOT) ∧
      ∀ header hashes, execute config.toEvmConfig keccak input = .ok (header, hashes) →
        header.hashSlow keccak = block.header.hashSlow keccak ∧
          BRIDGE_INFO.calculateBridgeHashes keccak (config.receipts output) = some hashes := by
  obtain ⟨start, db, output, state, h⟩ := hostExecuted_of_ok hhost.executeOn
  have hrecords : Records config block parentStateRoot factory output db := ⟨start, h.new, h.run⟩
  obtain ⟨provider, hprovider, hstart⟩ := new_eq_ok h.new
  obtain ⟨hserved, hpost⟩ := hserves provider hprovider
  obtain ⟨hbuilt, hslots, hstateRoot⟩ := witness_of_state config.readsBack hempty hworld hroot hzero
    hprovider hserved (faithful_of_run hstart h.run) (hpost output db hrecords) h.witness
  obtain ⟨hhead, blockHashes, hhashes, hrepeated⟩ :=
    h.repeated hchain hpos hworld hserved hasks hstart hbuilt hslots
  have hcurrent : input.currentBlock = block.header := congrArg Block.header h.block
  refine ⟨output, db, hrecords, ⟨blockHashes, hhashes, hrepeated⟩, ?_, ?_⟩
  · rw [← hbuilt.storageRootsMatch_iff hworld.complete getTargets_nodup]
    constructor
    · rintro ⟨header, hashes, hclient⟩
      obtain ⟨⟨_, _, _, hexecuted⟩, -⟩ := execute_eq_ok.mp hclient
      obtain ⟨_, _, _, -, -, hmatch, -⟩ := witnessDb_eq_ok.mp hexecuted.witness
      exact hmatch
    · intro hmatch
      obtain ⟨rest, hparents⟩ := List.head?_eq_some_iff.mp hhead
      obtain ⟨hashes, hbridge⟩ :=
        @BridgeInfo.exists_calculateBridgeHashes BRIDGE_INFO keccak (config.receipts output)
      have hexecuted : Executed config.toEvmConfig keccak input
          ⟨input.parentState.toEthereumState, blockHashes, bytecodesByHash keccak input.bytecodes⟩
          output state hashes := by
        refine ⟨witnessDb_eq_ok.mpr ⟨_, rest, blockHashes, hparents, ?_, hmatch, hhashes, rfl⟩, ?_,
          ?_, hancestors, ?_, ?_, h.update, ?_, hbridge⟩
        · rw [hparent, hstateRoot]
        · rw [h.block]
          exact h.recovered
        · rw [h.block, EvmConfig.validateBlock, h.header]
          exact hbody
        · rw [h.block]
          exact hrepeated
        · rw [h.block]
          exact h.post
        · rw [hcurrent]
          exact h.root
      exact ⟨_, hashes, execute_eq_ok.mpr ⟨⟨_, output, state, hexecuted⟩, rfl⟩⟩
  · intro header hashes hclient
    obtain ⟨⟨client, output', _, hexecuted⟩, rfl⟩ := execute_eq_ok.mp hclient
    -- The client ran the block on the same database, so its output is that of the host.
    obtain ⟨_, _, _, -, -, -, hhashes', rfl⟩ := witnessDb_eq_ok.mp hexecuted.witness
    rw [hhashes] at hhashes'
    cases hhashes'
    have hrun := hexecuted.run
    rw [h.block, hrepeated] at hrun
    cases hrun
    refine ⟨?_, hexecuted.hashes⟩
    -- The bloom filter that the host computed is the one in the header.
    have hbloom := (fields_eq_of_encode (hheader _ _ hrecords h.hash)).2
    rw [hcurrent, ← h.hash]
    exact congrArg (fun bloom => (deriveHeader block.header block.header.stateRoot bloom).hashSlow
      keccak) hbloom.symm

section Sample

/-- The account is read with its slot and removed. -/
def removingConfig : HostConfig Unit Unit Unit :=
  { slotConfig with
    hashedPostState := fun _ => ⟨[(B256.zero, none)], []⟩
    accounts_nodup := by simp
    slots_nodup := by simp [HashedPostState.storageOf]
    logsBloom := fun _ => .zero 256
    reader := strictReader
    readsBack := strictReader_readsBack }

/-- A node that has the account and proves it together with its slot. -/
def slotProvider : StateProvider where
  basicAccount _ := .ok (some ⟨1, 0, none⟩)
  bytecodeByHash _ := .ok none
  storage _ _ := .ok (some 1)
  multiproof post targets :=
    if targets = [(B256.zero, [B256.zero])] then
      .ok (if post.accounts.isEmpty then
          slotProof ⟨slotAccount.storageRoot, [slotLeaf.encode slotKeccak]⟩
        else noProof ⟨EMPTY_ROOT, [[EMPTY_STRING_CODE]]⟩)
    else .error "not proved"

def removingBlock : Block Unit :=
  ⟨{ blankHeader 1 B256.zero with stateRoot := EMPTY_ROOT }, ()⟩

def slotFactory : ProviderFactory where
  headerByNumber number := .ok (if number = 0 then some slotParent else none)
  blockHash number := .ok (if number = 0 then some B256.zero else none)
  stateByBlockHash _ := .ok slotProvider
  historyByBlockNumber _ := .error "not kept"

def removingChain : Nat → Header
  | 0 => slotParent
  | _ => removingBlock.header

theorem slotParent_stateRoot : slotParent.stateRoot ≠ B256.zero := by decide +kernel

theorem slotFactory_serves :
    slotFactory.toProvider.Serves slotKeccak removingBlock.header removingChain where
  top := rfl
  number i hi := by
    have hbound : i ≤ 1 := hi
    interval_cases i <;> rfl
  parent i hi := by
    obtain rfl : i = 0 := Nat.lt_one_iff.mp hi
    exact slotParent_hash.symm
  header i hi := by
    obtain rfl : i = 0 := Nat.lt_one_iff.mp hi
    rfl
  hash i hi := by
    obtain rfl : i = 0 := Nat.lt_one_iff.mp hi
    rw [removingChain, slotParent_hash]
    rfl

/-- No address and no index is in the table. -/
theorem tableHash_of_length {bytes : Bytes} (h : bytes.length = 20 ∨ bytes.length = 32) :
    slotKeccak bytes = B256.zero := by
  have hlengths : ∀ entry ∈ slotStateDigests, entry.1.length ≠ 20 ∧ entry.1.length ≠ 32 := by
    decide +kernel
  have hnone : slotStateDigests.lookup bytes = none := by
    refine List.lookup_eq_none_iff.mpr fun entry hentry => ?_
    have hne : bytes ≠ entry.1 := by
      rintro rfl
      exact h.elim (hlengths entry hentry).1 (hlengths entry hentry).2
    simpa using hne
  rw [slotKeccak, tableHash, hnone]
  rfl

theorem hashAddress_sample (address : Address) : hashAddress slotKeccak address = B256.zero :=
  tableHash_of_length (.inl address.length_eq)

theorem hashIndex_sample (index : U256) : hashIndex slotKeccak index = B256.zero :=
  tableHash_of_length (.inr (beBytes_length ..))

theorem slot_report : StorageReport slotKeccak slotLeaf [B256.zero]
    ⟨slotAccount.storageRoot, [slotLeaf.encode slotKeccak]⟩ := by
  have htrie : slotTries.storageTrie B256.zero = slotLeaf :=
    (storageTrie_slotState B256.zero).trans (if_pos rfl)
  have hroot : slotAccount.storageRoot = (slotTries.storageTrie B256.zero).hash _ :=
    slotWorld_heldBy.storageRoot (Function.update_self ..)
  rw [htrie] at hroot
  rw [StorageReport, if_neg (by simp)]
  exact ⟨hroot, contains_leaf _ _ _ _⟩

theorem slot_proof : IsMultiproof slotKeccak slotTries [(B256.zero, [B256.zero])]
    (slotProof ⟨slotAccount.storageRoot, [slotLeaf.encode slotKeccak]⟩) := by
  have h := isMultiproof_slotProof slot_report
  exact ⟨h.accounts, h.storages, h.targets⟩

theorem slotProvider_serves : slotProvider.Serves slotKeccak slotWorld slotTries where
  account address found h := by
    cases h
    rw [hashAddress_sample]
    rfl
  codeHash address account h := by
    simp only [slotWorld] at h
    split_ifs at h
    cases h
    decide +kernel
  code address account h found hfound := by
    simp only [slotWorld] at h
    split_ifs at h
    cases h
    cases hfound
    rfl
  emptyCode found h := by
    cases h
    rfl
  storage address index found h := by
    cases h
    rw [hashAddress_sample, hashIndex_sample]
    rfl
  before targets proof h := by
    simp only [slotProvider, List.isEmpty_nil, if_true] at h
    split_ifs at h with htargets
    cases h
    rw [htargets]
    exact slot_proof

theorem slotProvider_provesAfter :
    slotProvider.ProvesAfter slotKeccak slotTries ⟨[(B256.zero, none)], []⟩ := by
  intro targets proof h
  simp only [slotProvider, List.isEmpty_cons, Bool.false_eq_true, if_false] at h
  split_ifs at h with htargets
  cases h
  rw [htargets]
  exact ⟨noState, noState_complete _, isMultiproof_noProof _ (null_report _),
    @injOn_slotState ⟨EMPTY_ROOT, [[EMPTY_STRING_CODE]]⟩ (.inr rfl)⟩

theorem removing_host : ∃ input, executeExexWithBlock removingConfig slotKeccak 9 removingBlock
    slotParent.stateRoot slotFactory = .ok input :=
  exists_of_isOk (by decide +kernel)

/-- Both the account and its slot are recorded. -/
theorem removing_targets {output : Unit} {db : RecordingDb}
    (h : Records removingConfig removingBlock slotParent.stateRoot slotFactory output db) :
    db.getTargets slotKeccak (removingConfig.hashedPostState output) =
      [(B256.zero, [B256.zero])] := by
  obtain ⟨start, hnew, hrun⟩ := h
  have htargets : ((new slotFactory 1 B256.zero slotParent.stateRoot).toOption.bind fun start =>
      (removingConfig.execute databaseRef removingBlock start).toOption.map fun result =>
        result.2.getTargets slotKeccak ⟨[(B256.zero, none)], []⟩) =
      some [(B256.zero, [B256.zero])] := by decide +kernel
  rw [show new slotFactory 1 B256.zero slotParent.stateRoot = .ok start from hnew] at htargets
  simp only [Except.toOption, Option.bind_some, hrun, Option.map_some, Option.some.injEq]
    at htargets
  exact htargets

theorem slotConfig_validateAncestors (headers : List SealedHeader) :
    removingConfig.validateAncestors headers = .ok () := by
  induction headers with
  | nil => rfl
  | cons header rest ih =>
      cases rest with
      | nil => rfl
      | cons parent rest => exact ih

/-- The block that removes the account passes the client. -/
theorem host_input_accepted_removing : ∃ input header hashes,
    executeExexWithBlock removingConfig slotKeccak 9 removingBlock slotParent.stateRoot
        slotFactory = .ok input ∧
      execute removingConfig.toEvmConfig slotKeccak input = .ok (header, hashes) := by
  obtain ⟨input, hhost⟩ := removing_host
  obtain ⟨output, db, hrecords, -, haccepted, -⟩ := host_input_accepted_iff removingConfig
    slotKeccak slotInput_apart.empty 9 removingBlock slotParent.stateRoot slotFactory input
    (.handed hhost) removingChain slotFactory_serves (by decide) rfl slotWorld slotAccounts
    slotTries slotWorld_heldBy rfl slotParent_stateRoot
    (by rintro _ ⟨⟩; exact ⟨slotProvider_serves, fun _ _ _ => slotProvider_provesAfter⟩)
    ⟨trivial, fun _ => ⟨trivial, fun _ => trivial⟩⟩ rfl (slotConfig_validateAncestors _)
    (fun _ _ _ _ => rfl)
  obtain ⟨header, hashes, hclient⟩ := haccepted.mpr (by
    intro target htarget hslots
    rw [removing_targets hrecords] at htarget
    rw [List.mem_singleton.mp htarget] at hslots
    cases hslots)
  exact ⟨input, header, hashes, hhost, hclient⟩

end Sample

end FluentStf.Executor
