import FluentStf.Executor.ClientExecutor
import FluentStf.Mpt.MultiproofReads
import Mathlib.Data.List.AList

/-! The database of the host while it executes a block. It answers from a provider of the state
before the block, remembers what it was asked for, and asks the provider for proofs of all that in
the end. -/
namespace FluentStf.Executor

open Mpt

/-- The state before a block, as a node serves it. A failure comes with a text. A multiproof is
for the state after the given changes. -/
structure StateProvider where
  basicAccount : Address → Except String (Option Account)
  bytecodeByHash : B256 → Except String (Option Bytes)
  storage : Address → B256 → Except String (Option U256)
  multiproof : HashedPostState → Targets → Except String MultiProof

/-- Where the host gets headers, hashes and states from. -/
structure ProviderFactory extends Provider where
  stateByBlockHash : B256 → Except String StateProvider
  historyByBlockNumber : UInt64 → Except String StateProvider

/-- The state before a block: by the hash of its parent, or by number if that is not known. -/
def ProviderFactory.beforeProvider (factory : ProviderFactory) (blockNumber : UInt64)
    (parentHash : B256) : Except String StateProvider :=
  match factory.stateByBlockHash parentHash with
  | .ok provider => .ok provider
  | .error _ =>
      factory.historyByBlockNumber (if blockNumber = 0 then 0 else blockNumber - 1)

inductive ExExError where
  | block (e : RpcDbError)
  | GetProofError (address : Address) (text : String)
  | GetCodeError (address : Address) (text : String)
  | GetStorageError (address : Address) (index : U256) (text : String)
  | provider (text : String)
  | proof (e : ProofFault)

/-- What the database is set up with. -/
structure DbContext where
  factory : ProviderFactory
  parentHash : B256
  stateRoot : B256
  beforeProvider : StateProvider

/-- The database with its records. An account that is not there is recorded as such. -/
structure RecordingDb extends ExExDb, DbContext where
  accounts : AList fun _ : Address => Option AccountInfo
  storage : AList fun _ : Address => AList fun _ : U256 => U256

abbrev Recorder := StateT RecordingDb (Except ExExError)

namespace RecordingDb

def new (factory : ProviderFactory) (blockNumber : UInt64) (parentHash stateRoot : B256) :
    Except ExExError RecordingDb := do
  let beforeProvider ← (factory.beforeProvider blockNumber parentHash).mapError .provider
  return { ExExDb.new factory.toProvider blockNumber with
    factory, parentHash, stateRoot, beforeProvider, accounts := ∅, storage := ∅ }

/-- An account as it is handed to the executor, with its code. -/
def accountInfo (provider : StateProvider) (address : Address) :
    Except ExExError (Option AccountInfo) := do
  match ← (provider.basicAccount address).mapError (.GetProofError address) with
  | none => return none
  | some account =>
      let codeHash := if account.getBytecodeHash = B256.zero then KECCAK_EMPTY
        else account.getBytecodeHash
      let bytecode ← (provider.bytecodeByHash codeHash).mapError (.GetCodeError address)
      return some ⟨account.balance, account.nonce, codeHash, some (bytecode.getD [])⟩

def recordAccount (db : RecordingDb) (address : Address) (info : Option AccountInfo) :
    RecordingDb :=
  { db with accounts := db.accounts.insert address info }

def fetchAccountInfo (address : Address) : Recorder (Option AccountInfo) := fun db => do
  let result ← accountInfo db.beforeProvider address
  return (result, db.recordAccount address result)

/-- A slot that the provider does not have is zero. -/
def storageAt (provider : StateProvider) (address : Address) (index : U256) :
    Except ExExError U256 := do
  let value ← (provider.storage address ⟨beBytes 32 index.val, beBytes_length ..⟩).mapError
    (.GetStorageError address index)
  return value.getD 0

/-- The recorded slots of an account. -/
def slotsOf (db : RecordingDb) (address : Address) : AList fun _ : U256 => U256 :=
  (db.storage.lookup address).getD ∅

def recordSlot (db : RecordingDb) (address : Address) (index value : U256) : RecordingDb :=
  { db with storage := db.storage.insert address ((db.slotsOf address).insert index value) }

def fetchStorageAt (address : Address) (index : U256) : Recorder U256 := fun db => do
  let value ← storageAt db.beforeProvider address index
  return (value, db.recordSlot address index value)

def fetchCodeByHash (codeHash : B256) : Recorder Bytes := fun db => do
  if codeHash = KECCAK_EMPTY ∨ codeHash = B256.zero then return ([], db)
  match ← (db.beforeProvider.bytecodeByHash codeHash).mapError (.GetCodeError (.zero 20)) with
  | some code => return (code, db)
  | none => .error (.GetCodeError (.zero 20)
      ("bytecode not found for hash " ++ Nitro.hexWord codeHash))

def fetchBlockHash (number : UInt64) : Recorder B256 := fun db =>
  match db.toExExDb.fetchBlockHash number with
  | (.error e, _) => .error (.block e)
  | (.ok hash, toExExDb) => .ok (hash, { db with toExExDb })

def databaseRef : DatabaseRef Recorder where
  basicRef := fetchAccountInfo
  codeByHashRef := fetchCodeByHash
  storageRef := fetchStorageAt
  blockHashRef := fetchBlockHash

section

variable (keccak : Bytes → B256) (db : RecordingDb)

/-- One more account with some of its slots. -/
def addTarget (targets : AList fun _ : B256 => List B256) (target : B256 × List B256) :
    AList fun _ : B256 => List B256 :=
  targets.insert target.1 ((targets.lookup target.1).getD [] ∪ target.2)

def collectTargets (wanted : List (B256 × List B256)) : AList fun _ : B256 => List B256 :=
  wanted.foldl addTarget ∅

/-- What was read during the execution. -/
def readTargets : List (B256 × List B256) :=
  (db.accounts.keys ++ db.storage.keys).map fun address =>
    (hashAddress keccak address, (db.slotsOf address).keys.map (hashIndex keccak))

/-- What the execution changed, also what it did not read. -/
def changedTargets (post : HashedPostState) : List (B256 × List B256) :=
  post.accounts.map fun change =>
    (change.1, (post.storageOf change.1).storage.map Prod.fst)

def getTargets (post : HashedPostState) : Targets :=
  (collectTargets (db.readTargets keccak ++ changedTargets post)).entries.map
    fun entry => (entry.1, entry.2)

/-- The proofs of all targets, before and after the block. -/
def multiproofs (post : HashedPostState) : Except ExExError (MultiProof × MultiProof) := do
  let before ← (db.factory.beforeProvider db.blockNumber db.parentHash).mapError .provider
  let beforeMultiproof ← (before.multiproof ⟨[], []⟩ (db.getTargets keccak post)).mapError
    (.GetProofError (.zero 20))
  let afterMultiproof ← (before.multiproof post (db.getTargets keccak post)).mapError
    (.GetProofError (.zero 20))
  return (beforeMultiproof, afterMultiproof)

/-- The state from both proofs. Its storage tries are those of the first one. -/
def witnessOf (reader : RlpReader) (fuel : Nat) (before after : MultiProof) :
    Except ExExError WitnessState :=
  match h : transitionMultiproofsToTries reader keccak fuel db.stateRoot before after with
  | .error e => .error (.proof e)
  | .ok state => .ok ⟨state, proofAddresses before, mem_proofAddresses h⟩

/-- The sparse state for the client. The bound is for the recursion that resolves the nodes. -/
def state (reader : RlpReader) (fuel : Nat) (post : HashedPostState) :
    Except ExExError WitnessState := do
  let (before, after) ← db.multiproofs keccak post
  db.witnessOf keccak reader fuel before after

/-- Codes of recorded accounts, each hash once. -/
def uniqueCodes : List (Option AccountInfo) → List B256 → List Bytes
  | [], _ => []
  | none :: rest, seen => uniqueCodes rest seen
  | some info :: rest, seen =>
      if info.codeHash = KECCAK_EMPTY ∨ info.codeHash = B256.zero ∨ info.codeHash ∈ seen then
        uniqueCodes rest seen
      else info.code.toList ++ uniqueCodes rest (info.codeHash :: seen)

def bytecodes : List Bytes := uniqueCodes (db.accounts.entries.map fun entry => entry.2) []

end

section Targets

/-- Every account that is wanted becomes a target, with all slots that are wanted of it. -/
theorem lookup_collectTargets {wanted : List (B256 × List B256)} {address : B256}
    {slots : List B256} (h : (address, slots) ∈ wanted) :
    ∃ found, (collectTargets wanted).lookup address = some found ∧ slots ⊆ found := by
  have hgrows : ∀ (wanted : List (B256 × List B256)) (targets : AList fun _ : B256 => List B256)
      (found : List B256), targets.lookup address = some found →
      ∃ found', (wanted.foldl addTarget targets).lookup address = some found' ∧
        found ⊆ found' := by
    intro wanted
    induction wanted with
    | nil => exact fun _ found hfound => ⟨found, hfound, List.Subset.refl _⟩
    | cons target rest ih =>
        intro targets found hfound
        by_cases haddress : address = target.1
        · subst haddress
          obtain ⟨found', hfound', hsub⟩ := ih (addTarget targets target) (found ∪ target.2)
            (by rw [addTarget, AList.lookup_insert, hfound, Option.getD_some])
          exact ⟨found', hfound', fun slot hslot => hsub (List.mem_union_left hslot _)⟩
        · exact ih (addTarget targets target) found
            (by rw [addTarget, AList.lookup_insert_ne haddress, hfound])
  obtain ⟨front, back, rfl⟩ := List.append_of_mem h
  rw [collectTargets, List.foldl_append, List.foldl_cons]
  obtain ⟨found, hfound, hsub⟩ := hgrows back (addTarget (front.foldl addTarget ∅) (address, slots))
    _ (AList.lookup_insert _)
  exact ⟨found, hfound, fun slot hslot => hsub (List.mem_union_right _ hslot)⟩

variable {keccak : Bytes → B256} {db : RecordingDb} {post : HashedPostState}

theorem getTargets_nodup : ((db.getTargets keccak post).map Prod.fst).Nodup := by
  rw [getTargets, List.map_map]
  exact (collectTargets _).nodupKeys

theorem exists_target_of_wanted {wanted : B256 × List B256}
    (h : wanted ∈ db.readTargets keccak ++ changedTargets post) :
    ∃ slots, (wanted.1, slots) ∈ db.getTargets keccak post ∧ wanted.2 ⊆ slots := by
  obtain ⟨found, hfound, hsub⟩ := lookup_collectTargets h
  exact ⟨found, List.mem_map.mpr ⟨⟨_, found⟩, AList.mem_lookup_iff.mp hfound, rfl⟩, hsub⟩

/-- A recorded account is a target, with its recorded slots. -/
theorem exists_target {address : Address} (h : address ∈ db.accounts) :
    ∃ slots, (hashAddress keccak address, slots) ∈ db.getTargets keccak post ∧
      ∀ index ∈ db.slotsOf address, hashIndex keccak index ∈ slots := by
  obtain ⟨slots, htarget, hsub⟩ := exists_target_of_wanted (List.mem_append_left _
    (List.mem_map.mpr ⟨address, List.mem_append_left _ h, rfl⟩))
  exact ⟨slots, htarget, fun index hindex => hsub (List.mem_map_of_mem hindex)⟩

/-- A changed account is a target, with its changed slots. -/
theorem exists_changed_target {change : B256 × Option Account} (h : change ∈ post.accounts) :
    ∃ slots, (change.1, slots) ∈ db.getTargets keccak post ∧
      (post.storageOf change.1).storage.map Prod.fst ⊆ slots :=
  exists_target_of_wanted (List.mem_append_right _ (List.mem_map_of_mem h))

end Targets

section Records

/-- More is recorded. -/
instance : Preorder RecordingDb where
  le db db' := (∀ address, address ∈ db.accounts → address ∈ db'.accounts) ∧
    (∀ address index, index ∈ db.slotsOf address → index ∈ db'.slotsOf address) ∧
    db'.oldestAncestor.toNat ≤ db.oldestAncestor.toNat
  le_refl db := ⟨fun _ h => h, fun _ _ h => h, le_rfl⟩
  le_trans a b c hab hbc := ⟨fun address h => hbc.1 address (hab.1 address h),
    fun address index h => hbc.2.1 address index (hab.2.1 address index h),
    hbc.2.2.trans hab.2.2⟩

theorem slotsOf_recordSlot (db : RecordingDb) (address other : Address) (index value : U256) :
    (db.recordSlot address index value).slotsOf other =
      if other = address then (db.slotsOf address).insert index value else db.slotsOf other := by
  rw [slotsOf, recordSlot]
  by_cases hother : other = address
  · subst hother
    rw [AList.lookup_insert, if_pos rfl]
    rfl
  · rw [AList.lookup_insert_ne hother, if_neg hother]
    rfl

theorem le_recordAccount (db : RecordingDb) (address : Address) (info : Option AccountInfo) :
    db ≤ db.recordAccount address info :=
  ⟨fun _ h => (AList.mem_insert _).mpr (.inr h), fun _ _ h => h, le_rfl⟩

theorem le_recordSlot (db : RecordingDb) (address : Address) (index value : U256) :
    db ≤ db.recordSlot address index value := by
  refine ⟨fun _ h => h, fun other key h => ?_, le_rfl⟩
  rw [slotsOf_recordSlot]
  split_ifs with hother
  · subst hother
    exact (AList.mem_insert _).mpr (.inr h)
  · exact h

/-- The code that comes with an account. -/
def codeOf (info : Option AccountInfo) : Bytes := (info.bind AccountInfo.code).getD []

/-- What an answer is taken from and what is recorded for it. -/
inductive Answered (start : RecordingDb) : (request : Request) → Response request → RecordingDb →
    Prop where
  | account {address : Address} {info : Option AccountInfo}
      (h : accountInfo start.beforeProvider address = .ok info) :
      Answered start (.account address) (info.map AccountInfo.basics)
        (start.recordAccount address info)
  | code {address : Address} {info : Option AccountInfo}
      (h : accountInfo start.beforeProvider address = .ok info) :
      Answered start (.code address) (codeOf info) (start.recordAccount address info)
  | absent {address : Address} {index : U256}
      (h : accountInfo start.beforeProvider address = .ok none) :
      Answered start (.storage address index) (0 : U256) (start.recordAccount address none)
  | slot {address : Address} {index value : U256} {info : AccountInfo}
      (h : accountInfo start.beforeProvider address = .ok (some info))
      (hvalue : storageAt start.beforeProvider address index = .ok value) :
      Answered start (.storage address index) value
        ((start.recordAccount address (some info)).recordSlot address index value)
  | blockHash {number : UInt64} {hash : B256}
      (h : expectBlock number (start.providerFactory.blockHash number) = .ok hash) :
      Answered start (.blockHash number) hash
        { start with oldestAncestor := min number start.oldestAncestor }

variable {request : Request} {address : Address}

theorem fetchAccountInfo_eq_ok {db next : RecordingDb} {result : Option AccountInfo} :
    fetchAccountInfo address db = .ok (result, next) ↔
      accountInfo db.beforeProvider address = .ok result ∧
        next = db.recordAccount address result := by
  rw [fetchAccountInfo]
  simp only [bind_eq_ok]
  constructor
  · rintro ⟨info, hinfo, hresult⟩
    cases hresult
    exact ⟨hinfo, rfl⟩
  · rintro ⟨hinfo, rfl⟩
    exact ⟨result, hinfo, rfl⟩

theorem accountInfo_code {provider : StateProvider} {info : AccountInfo}
    (h : accountInfo provider address = .ok (some info)) : ∃ code, info.code = some code := by
  rw [accountInfo, bind_eq_ok] at h
  obtain ⟨account, -, hrest⟩ := h
  cases account with
  | none => cases hrest
  | some account =>
      simp only [bind_eq_ok] at hrest
      obtain ⟨bytecode, -, hresult⟩ := hrest
      cases hresult
      exact ⟨_, rfl⟩

theorem answered {start next : RecordingDb} {response : Response request}
    (h : databaseRef.answer request start = .ok (response, next)) :
    Answered start request response next := by
  -- All but the last kind of question load the account first.
  have load : ∀ {α : Type} {address : Address} {rest : Option AccountInfo → Recorder α} {a : α},
      (fetchAccountInfo address >>= rest) start = .ok (a, next) →
      ∃ info, accountInfo start.beforeProvider address = .ok info ∧
        rest info (start.recordAccount address info) = .ok (a, next) := by
    intro α address rest a hload
    obtain ⟨⟨info, middle⟩, hinfo, hrest⟩ := bind_eq_ok.mp
      (show (fetchAccountInfo address start >>= fun loaded => rest loaded.1 loaded.2) =
        _ from hload)
    obtain ⟨hfound, rfl⟩ := fetchAccountInfo_eq_ok.mp hinfo
    exact ⟨info, hfound, hrest⟩
  cases request with
  | account address =>
      obtain ⟨info, hinfo, hrest⟩ := load h
      cases hrest
      exact .account hinfo
  | code address =>
      obtain ⟨info, hinfo, hrest⟩ := load h
      cases info with
      | none =>
          cases hrest
          exact .code hinfo
      | some info =>
          obtain ⟨code, hcode⟩ := accountInfo_code hinfo
          obtain ⟨balance, nonce, codeHash, _⟩ := info
          cases hcode
          cases hrest
          exact .code hinfo
  | storage address index =>
      obtain ⟨info, hinfo, hrest⟩ := load h
      cases info with
      | none =>
          cases hrest
          exact .absent hinfo
      | some info =>
          obtain ⟨value, hvalue, hresult⟩ := bind_eq_ok.mp
            (show (storageAt start.beforeProvider address index >>= fun value => _) = _ from hrest)
          cases hresult
          exact .slot hinfo hvalue
  | blockHash number =>
      simp only [DatabaseRef.answer, databaseRef, fetchBlockHash, ExExDb.fetchBlockHash] at h
      cases hhash : expectBlock number (start.providerFactory.blockHash number) with
      | error e =>
          rw [hhash] at h
          cases h
      | ok hash =>
          rw [hhash] at h
          cases h
          exact .blockHash hhash

theorem Answered.le {start next : RecordingDb} {response : Response request}
    (h : Answered start request response next) : start ≤ next := by
  cases h with
  | account _ => exact le_recordAccount ..
  | code _ => exact le_recordAccount ..
  | absent _ => exact le_recordAccount ..
  | slot _ _ => exact le_trans (le_recordAccount ..) (le_recordSlot ..)
  | @blockHash number _ _ =>
      refine ⟨fun _ h => h, fun _ _ h => h, ?_⟩
      change (min number start.oldestAncestor).toNat ≤ _
      rw [toNat_min]
      exact Nat.min_le_right ..

/-- The database as it is during a run: set up as in the beginning, and with records that the
provider would give again. -/
structure Faithful (context : DbContext) (blockNumber : UInt64) (db : RecordingDb) : Prop where
  setup : db.toDbContext = context
  providerFactory : db.providerFactory = context.factory.toProvider
  blockNumber : db.blockNumber = blockNumber
  infos : ∀ address info, db.accounts.lookup address = some info →
    accountInfo context.beforeProvider address = .ok info

variable {context : DbContext} {blockNumber : UInt64} {db : RecordingDb}

theorem Faithful.recordAccount (h : Faithful context blockNumber db) {info : Option AccountInfo}
    (hinfo : accountInfo db.beforeProvider address = .ok info) :
    Faithful context blockNumber (db.recordAccount address info) := by
  refine ⟨h.setup, h.providerFactory, h.blockNumber, fun other found hfound => ?_⟩
  rw [RecordingDb.recordAccount] at hfound
  by_cases hother : other = address
  · subst hother
    rw [AList.lookup_insert] at hfound
    cases hfound
    rw [← h.setup]
    exact hinfo
  · rw [AList.lookup_insert_ne hother] at hfound
    exact h.infos other found hfound

theorem Answered.faithful {next : RecordingDb} {response : Response request}
    (h : Answered db request response next) (hdb : Faithful context blockNumber db) :
    Faithful context blockNumber next := by
  cases h with
  | account hinfo => exact hdb.recordAccount hinfo
  | code hinfo => exact hdb.recordAccount hinfo
  | absent hinfo => exact hdb.recordAccount hinfo
  | slot hinfo _ =>
      obtain ⟨hsetup, hfactory, hnumber, hinfos⟩ := hdb.recordAccount hinfo
      exact ⟨hsetup, hfactory, hnumber, hinfos⟩
  | blockHash _ => exact ⟨hdb.setup, hdb.providerFactory, hdb.blockNumber, hdb.infos⟩

end Records

section Codes

theorem exists_of_mem_uniqueCodes {infos : List (Option AccountInfo)} {seen : List B256}
    {code : Bytes} (h : code ∈ uniqueCodes infos seen) :
    ∃ info, some info ∈ infos ∧ info.code = some code ∧ info.codeHash ≠ KECCAK_EMPTY := by
  induction infos generalizing seen with
  | nil => cases h
  | cons first rest ih =>
      cases first with
      | none =>
          obtain ⟨info, hmem, hinfo⟩ := ih h
          exact ⟨info, .tail _ hmem, hinfo⟩
      | some first =>
          rw [uniqueCodes] at h
          split_ifs at h with hskip
          · obtain ⟨info, hmem, hinfo⟩ := ih h
            exact ⟨info, .tail _ hmem, hinfo⟩
          · rcases List.mem_append.mp h with hfirst | hrest
            · exact ⟨first, .head _, Option.mem_toList.mp hfirst, fun he => hskip (.inl he)⟩
            · obtain ⟨info, hmem, hinfo⟩ := ih hrest
              exact ⟨info, .tail _ hmem, hinfo⟩

/-- Of the accounts with one code hash, the code of one is taken. -/
theorem exists_mem_uniqueCodes {infos : List (Option AccountInfo)} {seen : List B256}
    {info : AccountInfo} (h : some info ∈ infos) (hempty : info.codeHash ≠ KECCAK_EMPTY)
    (hzero : info.codeHash ≠ B256.zero) (hseen : info.codeHash ∉ seen) :
    ∃ other, some other ∈ infos ∧ other.codeHash = info.codeHash ∧
      ∀ code, other.code = some code → code ∈ uniqueCodes infos seen := by
  induction infos generalizing seen with
  | nil => cases h
  | cons first rest ih =>
      cases first with
      | none =>
          obtain ⟨other, hmem, hother⟩ := ih (by simpa using h) hseen
          exact ⟨other, .tail _ hmem, hother⟩
      | some first =>
          simp only [uniqueCodes]
          by_cases hsame : first.codeHash = info.codeHash
          · refine ⟨first, .head _, hsame, fun code hcode => ?_⟩
            rw [if_neg (by simp [hsame, hempty, hzero, hseen]), hcode]
            exact .head _
          · have hrest : some info ∈ rest := by
              rcases List.mem_cons.mp h with hfirst | hrest
              · cases hfirst
                exact absurd rfl hsame
              · exact hrest
            split_ifs with hskip
            · obtain ⟨other, hmem, hother⟩ := ih hrest hseen
              exact ⟨other, .tail _ hmem, hother⟩
            · have hseen' : info.codeHash ∉ first.codeHash :: seen := by
                simp [Ne.symm hsame, hseen]
              obtain ⟨other, hmem, hhash, hcodes⟩ := ih hrest hseen'
              exact ⟨other, .tail _ hmem, hhash, fun code hcode =>
                List.mem_append_right _ (hcodes code hcode)⟩

end Codes

end RecordingDb

end FluentStf.Executor
