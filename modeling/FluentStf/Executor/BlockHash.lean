import FluentStf.Header
import FluentStf.Rlp.Items
import Mathlib.Data.List.Range

/-! The hashes of earlier blocks. The host answers a request for one from its database and
remembers how far back it was asked. The client is given the headers back to there and takes
the hashes from them. -/
namespace FluentStf.Executor

/-- What the host asks its database. A failure comes with a text. -/
structure Provider where
  headerByNumber : UInt64 → Except String (Option Header)
  blockHash : UInt64 → Except String (Option B256)

inductive RpcDbError where
  | GetBlockError (number : UInt64) (text : String)
  | BlockNotFound (number : UInt64)
deriving DecidableEq

def expectBlock {α : Type} (number : UInt64) : Except String (Option α) → Except RpcDbError α
  | .error text => .error (.GetBlockError number text)
  | .ok none => .error (.BlockNotFound number)
  | .ok (some a) => .ok a

/-- The database of the host while it executes one block. -/
structure ExExDb where
  providerFactory : Provider
  blockNumber : UInt64
  oldestAncestor : UInt64

namespace ExExDb

def new (providerFactory : Provider) (blockNumber : UInt64) : ExExDb :=
  ⟨providerFactory, blockNumber, blockNumber⟩

def fetchBlockHash (db : ExExDb) (number : UInt64) : Except RpcDbError B256 × ExExDb :=
  match expectBlock number (db.providerFactory.blockHash number) with
  | .error e => (.error e, db)
  | .ok hash => (.ok hash, { db with oldestAncestor := min number db.oldestAncestor })

/-- A sequence of requests. -/
def fetchBlockHashes : ExExDb → List UInt64 → List (Except RpcDbError B256) × ExExDb
  | db, [] => ([], db)
  | db, number :: rest =>
      let (result, db) := db.fetchBlockHash number
      let (results, db) := fetchBlockHashes db rest
      (result :: results, db)

def headerAt (db : ExExDb) (height : UInt64) : Except RpcDbError Header :=
  expectBlock height (db.providerFactory.headerByNumber height)

/-- The heights `first..last`. -/
def heights (first last : UInt64) : List UInt64 :=
  (List.range' first.toNat (last.toNat - first.toNat)).map UInt64.ofNat

/-- The headers below the current block, from its parent down to the oldest block that was asked
for. At least the parent is needed. -/
def ancestorHeaders (db : ExExDb) : Except RpcDbError (List Header) :=
  if db.blockNumber ≤ db.oldestAncestor then do
    let header ← db.headerAt (db.blockNumber - 1)
    .ok [header]
  else (heights db.oldestAncestor db.blockNumber).reverse.mapM db.headerAt

end ExExDb

/-- A header with its hash. -/
structure SealedHeader where
  header : Header
  hash : B256

inductive ClientError where
  | InvalidHeaderBlockNumber (expected found : UInt64)
  | InvalidHeaderParentHash (expected found : B256)
deriving DecidableEq

abbrev BlockHashes := UInt64 → Option B256

/-- The checks of `witness_db` on neighbouring headers. The number below zero is the largest one:
a build with overflow checks panics there and accepts less. -/
def checkHeaders : List SealedHeader → BlockHashes → Except ClientError BlockHashes
  | child :: parent :: rest, blockHashes =>
      if parent.header.number ≠ child.header.number - 1 then
        .error (.InvalidHeaderBlockNumber (parent.header.number + 1) child.header.number)
      else if parent.hash ≠ child.header.parentHash then
        .error (.InvalidHeaderParentHash parent.hash child.header.parentHash)
      else checkHeaders (parent :: rest)
        (Function.update blockHashes parent.header.number (some child.header.parentHash))
  | _, blockHashes => .ok blockHashes

/-- The part of the input that the header checks read. The length of a vector is a machine
word. -/
structure ClientExecutorInput where
  currentBlock : Header
  ancestorHeaders : List Header
  length_lt : ancestorHeaders.length < 2 ^ 64

section Model

variable (keccak : Bytes → B256)

def sealSlow (header : Header) : SealedHeader := ⟨header, header.hashSlow keccak⟩

@[simp] theorem sealSlow_header (header : Header) : (sealSlow keccak header).header = header := rfl

@[simp] theorem sealSlow_hash (header : Header) :
    (sealSlow keccak header).hash = header.hashSlow keccak := rfl

namespace ClientExecutorInput

def sealedHeaders (input : ClientExecutorInput) : List SealedHeader :=
  (input.currentBlock :: input.ancestorHeaders).map (sealSlow keccak)

def blockHashes (input : ClientExecutorInput) : Except ClientError BlockHashes :=
  checkHeaders (input.sealedHeaders keccak) fun _ => none

end ClientExecutorInput

end Model

/-- A number that is not there makes the client panic. -/
def blockHashRef (blockHashes : BlockHashes) (number : UInt64) : Option B256 := blockHashes number

/-- The database has the headers of a chain up to the current block, and their hashes. -/
structure Provider.Serves (keccak : Bytes → B256) (provider : Provider) (current : Header)
    (chain : Nat → Header) : Prop where
  top : chain current.number.toNat = current
  number : ∀ i ≤ current.number.toNat, (chain i).number.toNat = i
  parent : ∀ i < current.number.toNat, (chain (i + 1)).parentHash = (chain i).hashSlow keccak
  header : ∀ i < current.number.toNat,
    provider.headerByNumber (UInt64.ofNat i) = .ok (some (chain i))
  hash : ∀ i < current.number.toNat,
    provider.blockHash (UInt64.ofNat i) = .ok (some ((chain i).hashSlow keccak))

section Client

/-- What is checked of a header and the one behind it. -/
def Linked (child parent : SealedHeader) : Prop :=
  parent.header.number = child.header.number - 1 ∧ parent.hash = child.header.parentHash

/-- The hashes that are taken from a list of headers. -/
def recordHashes : List SealedHeader → BlockHashes → BlockHashes
  | child :: parent :: rest, blockHashes => recordHashes (parent :: rest)
      (Function.update blockHashes parent.header.number (some child.header.parentHash))
  | _, blockHashes => blockHashes

theorem checkHeaders_eq_ok {headers : List SealedHeader} {start blockHashes : BlockHashes} :
    checkHeaders headers start = .ok blockHashes ↔
      headers.IsChain Linked ∧ recordHashes headers start = blockHashes := by
  induction headers generalizing start with
  | nil => simp [checkHeaders, recordHashes]
  | cons child rest ih =>
      cases rest with
      | nil => simp [checkHeaders, recordHashes]
      | cons parent rest =>
          rw [checkHeaders, recordHashes, List.isChain_cons_cons, and_assoc, ← ih, Linked]
          split_ifs with hnumber hhash
          · simp [hnumber]
          · simp [hhash]
          · have hlinked : parent.header.number = child.header.number - 1 ∧
                parent.hash = child.header.parentHash := ⟨not_not.mp hnumber, not_not.mp hhash⟩
            exact (and_iff_right hlinked).symm

theorem toNat_pred {n : UInt64} (h : 0 < n.toNat) : (n - 1).toNat = n.toNat - 1 := by
  have hone : (1 : UInt64) ≤ n := UInt64.le_iff_toNat_le.mpr h
  rw [UInt64.toNat_sub_of_le _ _ hone]
  rfl

/-- The hash under a number comes from the header as far down the list as the number is below
that of the first one. -/
theorem recordHashes_apply {first : SealedHeader} {rest : List SealedHeader}
    (hchain : (first :: rest).IsChain Linked) (hlength : rest.length ≤ 2 ^ 64) (start : BlockHashes)
    (number : UInt64) :
    recordHashes (first :: rest) start number =
      if (first.header.number - 1 - number).toNat < rest.length then
        (first :: rest)[(first.header.number - 1 - number).toNat]?.map (·.header.parentHash)
      else start number := by
  induction rest generalizing first start with
  | nil => simp [recordHashes]
  | cons parent rest ih =>
      obtain ⟨hlinked, hrest⟩ := List.isChain_cons_cons.mp hchain
      rw [List.length_cons] at hlength
      rw [recordHashes, ih hrest (by omega)]
      have hbelow : parent.header.number - 1 - number = first.header.number - 1 - number - 1 := by
        rw [hlinked.1]
        grind
      rw [hbelow, List.length_cons]
      by_cases hzero : first.header.number - 1 - number = 0
      · have hnumber : number = parent.header.number := by
          rw [hlinked.1]
          grind
        have hlast : ((0 : UInt64) - 1).toNat = 2 ^ 64 - 1 := rfl
        rw [hzero, hnumber, Function.update_self, hlast, if_neg (by omega)]
        simp
      · have hpos : (first.header.number - 1 - number).toNat ≠ 0 :=
          fun h => hzero (UInt64.toNat_inj.mp h)
        have hne : number ≠ parent.header.number := by
          intro h
          rw [h, hlinked.1] at hzero
          exact hzero (UInt64.sub_self _)
        rw [toNat_pred (Nat.pos_of_ne_zero hpos), Function.update_of_ne hne]
        obtain ⟨k, hk⟩ := Nat.exists_eq_succ_of_ne_zero hpos
        rw [hk]
        simp

end Client

section Host

variable {keccak : Bytes → B256} {provider : Provider} {current : Header} {chain : Nat → Header}

theorem Provider.Serves.headerAt (h : provider.Serves keccak current chain) {db : ExExDb}
    (hdb : db.providerFactory = provider) {height : UInt64} (hheight : height < current.number) :
    db.headerAt height = .ok (chain height.toNat) := by
  have hserved := h.header height.toNat (UInt64.lt_iff_toNat_lt.mp hheight)
  rw [UInt64.ofNat_toNat] at hserved
  rw [ExExDb.headerAt, hdb, hserved]
  rfl

theorem Provider.Serves.fetchBlockHash (h : provider.Serves keccak current chain) {db : ExExDb}
    (hdb : db.providerFactory = provider) {number : UInt64} (hnumber : number < current.number) :
    db.fetchBlockHash number = (.ok ((chain number.toNat).hashSlow keccak),
      { db with oldestAncestor := min number db.oldestAncestor }) := by
  have hserved := h.hash number.toNat (UInt64.lt_iff_toNat_lt.mp hnumber)
  rw [UInt64.ofNat_toNat] at hserved
  rw [ExExDb.fetchBlockHash, hdb, hserved]
  rfl

theorem toNat_min (m n : UInt64) : (min m n).toNat = min m.toNat n.toNat := by
  rw [Nat.min_def]
  change (if m ≤ n then m else n).toNat = _
  simp only [UInt64.le_iff_toNat_le]
  split <;> rfl

variable (h : provider.Serves keccak current chain)

include h

/-- Every request is answered, and the oldest block that was asked for is remembered. -/
theorem Provider.Serves.fetchBlockHashes {db : ExExDb} (hdb : db.providerFactory = provider)
    {requests : List UInt64} (hrequests : ∀ number ∈ requests, number < current.number) :
    ∃ oldest : UInt64, db.fetchBlockHashes requests =
        (requests.map fun number => .ok ((chain number.toNat).hashSlow keccak),
          { db with oldestAncestor := oldest }) ∧
      oldest.toNat ≤ db.oldestAncestor.toNat ∧
      ∀ number ∈ requests, oldest.toNat ≤ number.toNat := by
  induction requests generalizing db with
  | nil => exact ⟨db.oldestAncestor, rfl, le_rfl, by simp⟩
  | cons number rest ih =>
      have hfirst := h.fetchBlockHash hdb (hrequests number (.head _))
      obtain ⟨oldest, hrest, hle, hall⟩ :=
        @ih { db with oldestAncestor := min number db.oldestAncestor } hdb
          fun other hother => hrequests other (.tail _ hother)
      have hmin : oldest.toNat ≤ min number.toNat db.oldestAncestor.toNat := by
        rw [← toNat_min]
        exact hle
      refine ⟨oldest, ?_, by omega, fun other hother => ?_⟩
      · simp only [ExExDb.fetchBlockHashes, hfirst, hrest, List.map_cons]
      · rcases List.mem_cons.mp hother with rfl | hother
        · omega
        · exact hall other hother

/-- The headers from the parent down to the oldest block that was asked for. -/
theorem Provider.Serves.ancestorHeaders (hpos : 1 ≤ current.number.toNat) {db : ExExDb}
    (hdb : db.providerFactory = provider) (hnumber : db.blockNumber = current.number) :
    ∃ oldest < current.number.toNat,
      (db.oldestAncestor.toNat < current.number.toNat → oldest = db.oldestAncestor.toNat) ∧
      db.ancestorHeaders = .ok ((List.range (current.number.toNat - oldest)).map
        fun k => chain (current.number.toNat - 1 - k)) := by
  have hlt := current.number.toNat_lt
  rw [ExExDb.ancestorHeaders, hnumber]
  split_ifs with hold
  · rw [UInt64.le_iff_toNat_le] at hold
    have hone := toNat_pred hpos
    have hbelow : current.number - 1 < current.number := by
      rw [UInt64.lt_iff_toNat_lt, hone]
      omega
    have hparent := h.headerAt hdb hbelow
    rw [hone] at hparent
    refine ⟨current.number.toNat - 1, by omega, fun hless => by omega, ?_⟩
    rw [hparent, show current.number.toNat - (current.number.toNat - 1) = 1 by omega]
    rfl
  · rw [UInt64.le_iff_toNat_le] at hold
    refine ⟨db.oldestAncestor.toNat, by omega, fun _ => rfl, ?_⟩
    rw [mapM_eq_ok, ExExDb.heights, ← List.map_reverse, List.reverse_range', List.map_map,
      List.forall₂_map_left_iff, List.forall₂_map_right_iff, List.forall₂_same]
    intro k hk
    rw [List.mem_range] at hk
    have hindex : db.oldestAncestor.toNat +
        (current.number.toNat - db.oldestAncestor.toNat) - 1 - k =
          current.number.toNat - 1 - k := by
      omega
    have hheight : (UInt64.ofNat (current.number.toNat - 1 - k)).toNat =
        current.number.toNat - 1 - k := by
      rw [UInt64.toNat_ofNat', Nat.mod_eq_of_lt (by omega)]
    have hbelow : UInt64.ofNat (current.number.toNat - 1 - k) < current.number := by
      rw [UInt64.lt_iff_toNat_lt, hheight]
      omega
    have hheader := h.headerAt hdb hbelow
    rw [hheight] at hheader
    rw [Function.comp_apply, hindex]
    exact hheader

/-- Headers of one chain pass the checks. -/
theorem Provider.Serves.isChain {count : Nat} (hcount : count ≤ current.number.toNat) :
    ((List.range (count + 1)).map fun k =>
      sealSlow keccak (chain (current.number.toNat - k))).IsChain Linked := by
  rw [List.isChain_map, List.isChain_range]
  intro m hm
  have hsucc : current.number.toNat - m = current.number.toNat - m.succ + 1 := by omega
  have hnumber := h.number (current.number.toNat - m) (by omega)
  have hparent := h.number (current.number.toNat - m.succ) (by omega)
  constructor
  · apply UInt64.toNat_inj.mp
    simp only [sealSlow_header]
    rw [toNat_pred (by omega), hnumber, hparent]
    omega
  · rw [sealSlow_hash, sealSlow_header, hsucc]
    exact (h.parent _ (by omega)).symm

/-- The hash of every block down to the oldest header can be looked up. -/
theorem Provider.Serves.recordHashes {oldest : Nat} {number : UInt64} (hold : oldest ≤ number.toNat)
    (hnumber : number < current.number) :
    FluentStf.Executor.recordHashes ((List.range (current.number.toNat - oldest + 1)).map fun k =>
        sealSlow keccak (chain (current.number.toNat - k))) (fun _ => none) number =
      some ((chain number.toNat).hashSlow keccak) := by
  have hlt := current.number.toNat_lt
  rw [UInt64.lt_iff_toNat_lt] at hnumber
  have hchain := h.isChain (Nat.sub_le current.number.toNat oldest)
  have hposition : ((List.range (current.number.toNat - oldest + 1)).map fun k => sealSlow keccak
      (chain (current.number.toNat - k)))[current.number.toNat - 1 - number.toNat]? =
        some (sealSlow keccak (chain (number.toNat + 1))) := by
    rw [List.getElem?_map, List.getElem?_range (by omega), Option.map_some]
    refine congrArg (fun i => some (sealSlow keccak (chain i))) ?_
    omega
  rw [List.range_succ_eq_map, List.map_cons] at hchain hposition ⊢
  have hfirst : (sealSlow keccak (chain (current.number.toNat - 0))).header.number =
      current.number := by
    rw [Nat.sub_zero, h.top]
    rfl
  have hindex : (current.number - 1 - number).toNat = current.number.toNat - 1 - number.toNat := by
    have hone := toNat_pred (Nat.zero_lt_of_lt hnumber)
    rw [UInt64.toNat_sub_of_le, hone]
    rw [UInt64.le_iff_toNat_le, hone]
    omega
  rw [recordHashes_apply hchain (by simp; omega), hfirst, hindex, if_pos (by simp; omega),
    hposition, Option.map_some]
  exact congrArg some (h.parent number.toNat hnumber)

end Host

section Agreement

variable {keccak : Bytes → B256}

/-- A header is encoded with the hash of its parent in front. -/
theorem parentHash_eq_of_encode {a b : Header} (h : a.encode = b.encode) :
    a.parentHash = b.parentHash := by
  have hflatten := Rlp.flatten_eq_of_encodeList h
  simp only [Header.items, List.cons_append, List.flatten_cons] at hflatten
  have hlength : ∀ word : B256, (Header.encodeWord word).length = 33 := by
    intro word
    rw [Header.encodeWord, ← Mpt.MptNode.digest_encode, Mpt.MptNodeReference.encode_length]
    rfl
  have hword := List.append_inj_left hflatten (by rw [hlength, hlength])
  have hfits : ∀ word : B256, word.bytes.length < 2 ^ 64 := by
    intro word
    rw [word.length_eq]
    decide
  exact B256.ext (Rlp.encodeBytes_inj (hfits _) (hfits _) hword)

/-- Chains below headers with one parent hash have the same parent hashes as far as both go. -/
theorem parentHash_agree {encodings : Set Bytes} (hinj : Set.InjOn keccak encodings)
    {child child' : Header} {rest rest' : List Header}
    (hchain : ((child :: rest).map (sealSlow keccak)).IsChain Linked)
    (hchain' : ((child' :: rest').map (sealSlow keccak)).IsChain Linked)
    (hrest : ∀ header ∈ rest, header.encode ∈ encodings)
    (hrest' : ∀ header ∈ rest', header.encode ∈ encodings)
    (hsame : child.parentHash = child'.parentHash) {k : Nat} (hk : k < rest.length)
    (hk' : k < rest'.length) :
    ((child :: rest).map (sealSlow keccak))[k]?.map (·.header.parentHash) =
      ((child' :: rest').map (sealSlow keccak))[k]?.map (·.header.parentHash) := by
  induction k generalizing child child' rest rest' with
  | zero => simpa using hsame
  | succ k ih =>
      cases rest with
      | nil => cases hk
      | cons parent rest =>
          cases rest' with
          | nil => cases hk'
          | cons parent' rest' =>
              obtain ⟨hlinked, hbelow⟩ := List.isChain_cons_cons.mp hchain
              obtain ⟨hlinked', hbelow'⟩ := List.isChain_cons_cons.mp hchain'
              have hhash : keccak parent.encode = keccak parent'.encode :=
                hlinked.2.trans (hsame.trans hlinked'.2.symm)
              have hencode := hinj (hrest parent (.head _)) (hrest' parent' (.head _)) hhash
              exact ih hbelow hbelow' (fun header hheader => hrest header (.tail _ hheader))
                (fun header hheader => hrest' header (.tail _ hheader))
                (parentHash_eq_of_encode hencode) (Nat.lt_of_succ_lt_succ hk)
                (Nat.lt_of_succ_lt_succ hk')

/-- What is found under a number stands in the header as far down the list. -/
theorem blockHashes_eq_some {input : ClientExecutorInput} {blockHashes : BlockHashes}
    (h : input.blockHashes keccak = .ok blockHashes) {number : UInt64} {hash : B256}
    (hnumber : blockHashes number = some hash) :
    (input.sealedHeaders keccak).IsChain Linked ∧
      (input.currentBlock.number - 1 - number).toNat < input.ancestorHeaders.length ∧
      (input.sealedHeaders keccak)[(input.currentBlock.number - 1 - number).toNat]?.map
        (·.header.parentHash) = some hash := by
  obtain ⟨hchain, hrecord⟩ := checkHeaders_eq_ok.mp h
  refine ⟨hchain, ?_⟩
  rw [ClientExecutorInput.sealedHeaders, List.map_cons] at hchain hrecord ⊢
  have hlength : (input.ancestorHeaders.map (sealSlow keccak)).length ≤ 2 ^ 64 := by
    rw [List.length_map]
    exact Nat.le_of_lt input.length_lt
  rw [← hrecord, recordHashes_apply hchain hlength, List.length_map] at hnumber
  split_ifs at hnumber with hindex
  exact ⟨hindex, hnumber⟩

end Agreement

/-- With a database that serves a chain, all requests are answered, the headers for the client are
found and pass its checks, and the client looks up what the host answered. Whatever headers the
client is given for a block, it finds the same hashes in them. -/
theorem host_and_client_agree (keccak : Bytes → B256) :
    (∀ provider current chain, Provider.Serves keccak provider current chain →
      1 ≤ current.number.toNat → ∀ requests : List UInt64,
      (∀ number ∈ requests, number < current.number) →
      ∃ results db, (ExExDb.new provider current.number).fetchBlockHashes requests = (results, db) ∧
        ∃ input : ClientExecutorInput, input.currentBlock = current ∧
          db.ancestorHeaders = .ok input.ancestorHeaders ∧
          ∃ blockHashes, input.blockHashes keccak = .ok blockHashes ∧
            List.Forall₂ (fun number result => ∃ hash, result = .ok hash ∧
              blockHashRef blockHashes number = some hash) requests results) ∧
    ∀ a b : ClientExecutorInput, a.currentBlock = b.currentBlock →
      Set.InjOn keccak {encoded | ∃ header ∈ a.ancestorHeaders ++ b.ancestorHeaders,
        header.encode = encoded} →
      ∀ hashes hashes', a.blockHashes keccak = .ok hashes → b.blockHashes keccak = .ok hashes' →
        ∀ number hash hash', blockHashRef hashes number = some hash →
          blockHashRef hashes' number = some hash' → hash = hash' := by
  constructor
  · intro provider current chain h hpos requests hrequests
    have hlt := current.number.toNat_lt
    obtain ⟨asked, hfetch, -, hall⟩ := @Provider.Serves.fetchBlockHashes keccak provider current
      chain h (ExExDb.new provider current.number) rfl requests hrequests
    refine ⟨_, _, hfetch, ?_⟩
    obtain ⟨oldest, -, hexact, hheaders⟩ := @Provider.Serves.ancestorHeaders keccak provider current
      chain h hpos ⟨provider, current.number, asked⟩ rfl rfl
    have hlist : (current :: (List.range (current.number.toNat - oldest)).map
          fun k => chain (current.number.toNat - 1 - k)).map (sealSlow keccak) =
        (List.range (current.number.toNat - oldest + 1)).map fun k =>
          sealSlow keccak (chain (current.number.toNat - k)) := by
      rw [List.range_succ_eq_map, List.map_cons, List.map_cons, Nat.sub_zero, h.top, List.map_map,
        List.map_map]
      refine congrArg _ (List.map_congr_left fun k _ => ?_)
      simp only [Function.comp_apply, Nat.succ_eq_add_one, Nat.sub_sub, Nat.add_comm]
    refine ⟨⟨current, _, by simp; omega⟩, rfl, hheaders, _, checkHeaders_eq_ok.mpr ⟨?_, rfl⟩, ?_⟩
    · rw [ClientExecutorInput.sealedHeaders, hlist]
      exact h.isChain (Nat.sub_le _ _)
    · rw [List.forall₂_map_right_iff, List.forall₂_same]
      intro number hnumber
      refine ⟨_, rfl, ?_⟩
      have hbelow := UInt64.lt_iff_toNat_lt.mp (hrequests number hnumber)
      have hold := hall number hnumber
      rw [blockHashRef, ClientExecutorInput.sealedHeaders, hlist]
      refine h.recordHashes ?_ (hrequests number hnumber)
      have hlower : asked.toNat < current.number.toNat := by omega
      rw [hexact hlower]
      exact hold
  · intro a b hcurrent hinj hashes hashes' ha hb number hash hash' hhash hhash'
    obtain ⟨hchain, hindex, hposition⟩ := blockHashes_eq_some ha hhash
    obtain ⟨hchain', hindex', hposition'⟩ := blockHashes_eq_some hb hhash'
    rw [← hcurrent] at hindex' hposition'
    have hagree := parentHash_agree hinj hchain hchain'
      (fun header hheader => ⟨header, List.mem_append_left _ hheader, rfl⟩)
      (fun header hheader => ⟨header, List.mem_append_right _ hheader, rfl⟩)
      (by rw [hcurrent]) hindex hindex'
    exact Option.some.inj (hposition.symm.trans (hagree.trans hposition'))

section Sample

def blankHeader (number : UInt64) (parentHash : B256) : Header where
  parentHash := parentHash
  ommersHash := B256.zero
  beneficiary := .zero 20
  stateRoot := B256.zero
  transactionsRoot := B256.zero
  receiptsRoot := B256.zero
  logsBloom := .zero 256
  difficulty := 0
  number := number
  gasLimit := 0
  gasUsed := 0
  timestamp := 0
  extraData := []
  mixHash := B256.zero
  nonce := .zero 8
  baseFeePerGas := none
  withdrawalsRoot := none
  blobGasUsed := none
  excessBlobGas := none
  parentBeaconBlockRoot := none
  requestsHash := none
  blockAccessListHash := none
  slotNumber := none

def genesis : Header := blankHeader 0 B256.zero

def genesisHash : B256 :=
  ⟨[0xc3, 0xbd, 0x2d, 0x00, 0x74, 0x5c, 0x03, 0x04, 0x8a, 0x56, 0x16, 0x14, 0x6a, 0x96, 0xf5, 0xff,
    0x78, 0xe5, 0x4e, 0xfb, 0x9e, 0x5b, 0x04, 0xaf, 0x20, 0x8c, 0xda, 0xff, 0x6f, 0x38, 0x30, 0xee],
    rfl⟩

def firstHeader : Header := blankHeader 1 genesisHash

def firstHash : B256 :=
  ⟨[0xdc, 0x7f, 0x8c, 0x07, 0xd4, 0xee, 0x3d, 0x89, 0x0b, 0x4a, 0x45, 0x72, 0xe3, 0xe8, 0x80, 0x14,
    0x83, 0x51, 0xae, 0x79, 0xdc, 0x63, 0x6d, 0x0e, 0x11, 0xa9, 0x58, 0xb9, 0x02, 0x4b, 0x92, 0xf7],
    rfl⟩

def secondHeader : Header := blankHeader 2 firstHash

def sampleChain : Nat → Header
  | 0 => genesis
  | 1 => firstHeader
  | _ => secondHeader

def headerHashes : List (Bytes × B256) :=
  [(genesis.encode, genesisHash), (firstHeader.encode, firstHash)]

def sampleProvider : Provider where
  headerByNumber number := .ok
    (if number = 0 then some genesis else if number = 1 then some firstHeader else none)
  blockHash number := .ok
    (if number = 0 then some genesisHash else if number = 1 then some firstHash else none)

theorem hashSlow_genesis : genesis.hashSlow (tableHash headerHashes) = genesisHash := by
  simp [Header.hashSlow, tableHash, headerHashes]

theorem hashSlow_firstHeader : firstHeader.hashSlow (tableHash headerHashes) = firstHash := by
  have hne : firstHeader.encode ≠ (genesis.encode, genesisHash).1 := by
    intro h
    have hparent := congrArg (fun word : B256 => word.bytes.head?) (parentHash_eq_of_encode h)
    exact absurd hparent (by decide)
  rw [Header.hashSlow, tableHash, headerHashes, lookup_cons_of_ne hne]
  simp

theorem sampleProvider_serves :
    sampleProvider.Serves (tableHash headerHashes) secondHeader sampleChain where
  top := rfl
  number i hi := by
    have hbound : i ≤ 2 := hi
    interval_cases i <;> rfl
  parent i hi := by
    have hbound : i < 2 := hi
    interval_cases i
    · exact hashSlow_genesis.symm
    · exact hashSlow_firstHeader.symm
  header i hi := by
    have hbound : i < 2 := hi
    interval_cases i <;> rfl
  hash i hi := by
    have hbound : i < 2 := hi
    interval_cases i
    · rw [sampleChain, hashSlow_genesis]
      rfl
    · rw [sampleChain, hashSlow_firstHeader]
      rfl

def shortInput : ClientExecutorInput := ⟨secondHeader, [firstHeader], by decide⟩

def longInput : ClientExecutorInput := ⟨secondHeader, [firstHeader, genesis], by decide⟩

theorem blockHashes_sample :
    shortInput.blockHashes (tableHash headerHashes) =
        .ok (Function.update (fun _ => none) 1 (some firstHash)) ∧
      longInput.blockHashes (tableHash headerHashes) =
        .ok (Function.update (Function.update (fun _ => none) 1 (some firstHash)) 0
          (some genesisHash)) := by
  have hfirst : Linked (sealSlow (tableHash headerHashes) secondHeader)
      (sealSlow (tableHash headerHashes) firstHeader) := by
    rw [Linked, sealSlow_hash, hashSlow_firstHeader]
    exact ⟨rfl, rfl⟩
  have hgenesis : Linked (sealSlow (tableHash headerHashes) firstHeader)
      (sealSlow (tableHash headerHashes) genesis) := by
    rw [Linked, sealSlow_hash, hashSlow_genesis]
    exact ⟨rfl, rfl⟩
  constructor
  · exact checkHeaders_eq_ok.mpr
      ⟨List.isChain_cons_cons.mpr ⟨hfirst, List.isChain_singleton _⟩, rfl⟩
  · refine checkHeaders_eq_ok.mpr ⟨List.isChain_cons_cons.mpr ⟨hfirst, ?_⟩, rfl⟩
    exact List.isChain_cons_cons.mpr ⟨hgenesis, List.isChain_singleton _⟩

theorem host_and_client_agree_sample :
    (∃ results db, (ExExDb.new sampleProvider 2).fetchBlockHashes [1, 0] = (results, db) ∧
      ∃ input : ClientExecutorInput, input.currentBlock = secondHeader ∧
        db.ancestorHeaders = .ok input.ancestorHeaders ∧
        ∃ blockHashes, input.blockHashes (tableHash headerHashes) = .ok blockHashes ∧
          List.Forall₂ (fun number result => ∃ hash, result = .ok hash ∧
            blockHashRef blockHashes number = some hash) [1, 0] results) ∧
      ∃ hashes hashes', shortInput.blockHashes (tableHash headerHashes) = .ok hashes ∧
        longInput.blockHashes (tableHash headerHashes) = .ok hashes' ∧
        ∃ hash hash', blockHashRef hashes 1 = some hash ∧ blockHashRef hashes' 1 = some hash' ∧
          hash = hash' := by
  have hagree := host_and_client_agree (tableHash headerHashes)
  constructor
  · have hnumber : secondHeader.number = 2 := rfl
    have hrequests : ∀ number ∈ [(1 : UInt64), 0], number < secondHeader.number := by
      intro number hmem
      rw [hnumber]
      rcases List.mem_pair.mp hmem with rfl | rfl
      · exact UInt64.lt_iff_toNat_lt.mpr (Nat.lt_succ_self 1)
      · exact UInt64.lt_iff_toNat_lt.mpr Nat.zero_lt_two
    exact hagree.1 sampleProvider secondHeader sampleChain sampleProvider_serves (by decide) [1, 0]
      hrequests
  · have hinj : Set.InjOn (tableHash headerHashes)
        {encoded | ∃ header ∈ shortInput.ancestorHeaders ++ longInput.ancestorHeaders,
          header.encode = encoded} := by
      have htable : Set.InjOn (tableHash headerHashes)
          {input | input ∈ headerHashes.map Prod.fst} :=
        injOn_tableHash (by decide) fun input hinput => hinput
      refine htable.mono ?_
      rintro encoded ⟨header, hheader, rfl⟩
      simp only [shortInput, longInput, List.cons_append, List.nil_append, List.mem_cons,
        List.not_mem_nil, or_false] at hheader
      rcases hheader with rfl | rfl | rfl <;> simp [headerHashes]
    obtain ⟨hshort, hlong⟩ := blockHashes_sample
    refine ⟨_, _, hshort, hlong, firstHash, firstHash, rfl, rfl, ?_⟩
    exact hagree.2 shortInput longInput rfl hinj _ _ hshort hlong 1 _ _ rfl rfl

end Sample

end FluentStf.Executor
