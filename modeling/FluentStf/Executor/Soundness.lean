import FluentStf.Executor.ClientExecutor
import FluentStf.Mpt.MultiproofState

/-! What the client vouches for. If it accepts a block on a witness whose root is that of a world,
then the same execution on this world gives the same output, and the new state root is that of the
world after the block. -/
namespace FluentStf.Executor

open Mpt Nitro Radix

/-- What a block is executed on when everything is at hand: a world, the codes behind their
hashes, and the hashes of earlier blocks. -/
structure Context where
  world : World
  code : B256 → Option Bytes
  blockHash : UInt64 → Option B256

def Context.databaseRef (keccak : Bytes → B256) (context : Context) : DatabaseRef Option where
  basicRef address := some ((context.world.account (hashAddress keccak address)).map fun account =>
    ⟨account.balance, account.nonce, account.codeHash, none⟩)
  codeByHashRef := context.code
  storageRef address index :=
    some (context.world.slot (hashAddress keccak address) (hashIndex keccak index))
  blockHashRef := context.blockHash

/-- The chain below a block. -/
structure Ancestry (keccak : Bytes → B256) (current : Header) (chain : Nat → Header) : Prop where
  top : chain current.number.toNat = current
  parent : ∀ i < current.number.toNat, (chain (i + 1)).parentHash = (chain i).hashSlow keccak

def hashesBelow (keccak : Bytes → B256) (current : Header) (chain : Nat → Header)
    (number : UInt64) : Option B256 :=
  if number < current.number then some ((chain number.toNat).hashSlow keccak) else none

section BlockHashes

variable {keccak : Bytes → B256}

/-- Headers that are linked to a chain are those of the chain as far as the hashes tell, and they
do not go further down. -/
theorem parentHash_of_linked {chain : Nat → Header} {encodings : Set Bytes}
    (hinj : Set.InjOn keccak encodings) {top : Nat}
    (hparent : ∀ i < top, (chain (i + 1)).parentHash = (chain i).hashSlow keccak)
    (hchain : ∀ i < top, (chain i).encode ∈ encodings) {child : Header} {rest : List Header}
    (hlinked : ((child :: rest).map (sealSlow keccak)).IsChain Linked)
    (hrest : ∀ header ∈ rest, header.encode ∈ encodings)
    (hgenesis : ∀ header ∈ rest, header.hashSlow keccak ≠ (chain 0).parentHash)
    {i : Nat} (hi : i ≤ top) (hchild : child.parentHash = (chain i).parentHash) :
    rest.length ≤ i ∧ ∀ k < rest.length,
      ((child :: rest).map (sealSlow keccak))[k]?.map (·.header.parentHash) =
        some ((chain (i - k)).parentHash) := by
  induction rest generalizing child i with
  | nil => exact ⟨Nat.zero_le i, fun k hk => absurd hk (Nat.not_lt_zero k)⟩
  | cons parent rest ih =>
      obtain ⟨⟨-, hhash⟩, hbelow⟩ := List.isChain_cons_cons.mp hlinked
      have hhash : parent.hashSlow keccak = (chain i).parentHash := hhash.trans hchild
      cases i with
      | zero => exact (hgenesis parent (.head _) hhash).elim
      | succ i =>
          rw [hparent i hi] at hhash
          have hencode := hinj (hrest parent (.head _)) (hchain i hi) hhash
          obtain ⟨hlength, hagree⟩ := ih hbelow (fun header h => hrest header (.tail _ h))
            (fun header h => hgenesis header (.tail _ h)) (Nat.le_of_lt hi)
            (parentHash_eq_of_encode hencode)
          refine ⟨Nat.succ_le_succ hlength, fun k hk => ?_⟩
          cases k with
          | zero => simpa using hchild
          | succ k =>
              rw [Nat.succ_sub_succ]
              exact hagree k (Nat.lt_of_succ_lt_succ hk)

/-- The hashes that the client takes from the headers are those of the chain. -/
theorem blockHashes_sound {chain : Nat → Header} {input : ClientExecutorInput}
    {blockHashes : BlockHashes} (hchain : Ancestry keccak input.currentBlock chain)
    (hinj : Set.InjOn keccak {encoded | (∃ header ∈ input.ancestorHeaders,
      header.encode = encoded) ∨ ∃ i < input.currentBlock.number.toNat, (chain i).encode = encoded})
    (hgenesis : ∀ header ∈ input.ancestorHeaders,
      header.hashSlow keccak ≠ (chain 0).parentHash)
    (h : input.blockHashes keccak = .ok blockHashes) {number : UInt64} {hash : B256}
    (hnumber : blockHashes number = some hash) :
    hashesBelow keccak input.currentBlock chain number = some hash := by
  obtain ⟨hlinked, hindex, hposition⟩ := blockHashes_eq_some h hnumber
  obtain ⟨hlength, hagree⟩ := parentHash_of_linked hinj hchain.parent
    (fun i hi => .inr ⟨i, hi, rfl⟩) hlinked (fun header h => .inl ⟨header, h, rfl⟩) hgenesis
    le_rfl (by rw [hchain.top])
  have hhash := (hagree _ hindex).symm.trans hposition
  have hone := toNat_pred (n := input.currentBlock.number) (by omega)
  -- The distance from the block below is not wrapped around.
  have hdistance : number.toNat =
      input.currentBlock.number.toNat - 1 - (input.currentBlock.number - 1 - number).toNat := by
    have hback : number = input.currentBlock.number - 1 -
        (input.currentBlock.number - 1 - number) := by grind
    have hle : input.currentBlock.number - 1 - number ≤ input.currentBlock.number - 1 := by
      rw [UInt64.le_iff_toNat_le, hone]
      omega
    have hnat := congrArg UInt64.toNat hback
    rw [UInt64.toNat_sub_of_le _ _ hle, hone] at hnat
    exact hnat
  have hbelow : number.toNat < input.currentBlock.number.toNat := by omega
  have hstep := hchain.parent number.toNat hbelow
  rw [hashesBelow, if_pos (UInt64.lt_iff_toNat_lt.mpr hbelow), ← hstep]
  rw [show input.currentBlock.number.toNat - (input.currentBlock.number - 1 - number).toNat =
    number.toNat + 1 by omega] at hhash
  exact hhash

end BlockHashes

/-- The tries of a witness are written as hosts write them. -/
structure WitnessState.Written (witness : WitnessState) : Prop where
  state : Mpt.Written witness.stateTrie
  storage : ∀ address trie, witness.storageTries address = some trie → Mpt.Written trie

/-- The nodes of a witness and of the full tries. -/
def hashedNodes (keccak : Bytes → B256) (W F : EthereumState) : Set Bytes :=
  {encoded | encoded = [EMPTY_STRING_CODE] ∨
    encoded ∈ W.stateTrie.encodings keccak ++ F.stateTrie.encodings keccak ∨
    ∃ address, encoded ∈
      (W.storageTrie address).encodings keccak ++ (F.storageTrie address).encodings keccak}

/-- The hash function keeps the nodes of a witness and of the full tries apart, and no storage
trie has the hash zero. -/
structure HashesApart (keccak : Bytes → B256) (W F : EthereumState) : Prop where
  empty : keccak [EMPTY_STRING_CODE] = EMPTY_ROOT
  injective : Set.InjOn keccak (hashedNodes keccak W F)
  nonzero : ∀ address, (F.storageTrie address).hash keccak ≠ B256.zero

section State

variable {keccak : Bytes → B256} {world : World} {accounts : B256 → Option TrieAccount}
  {witness : WitnessState} {F : EthereumState}

theorem get_of_view {w t : NibbleTrie} (hview : Trie.View (Hides keccak) w t) {key : Bytes}
    {found : Option Bytes} (h : (toNode w).get key = .ok found) :
    (toNode t).get key = .ok found := by
  rw [MptNode.get, getInternal_toNode] at h ⊢
  cases hlookup : w.lookup (toNibs key) with
  | error d =>
      rw [hlookup] at h
      cases h
  | ok x =>
      rw [hlookup] at h
      rw [Trie.lookup_view hview hlookup]
      exact h

/-- The witness shows parts of the full tries. -/
structure Shown (keccak : Bytes → B256) (witness : WitnessState) (F : EthereumState) : Prop where
  state : ∃ w t, witness.stateTrie = toNode w ∧ F.stateTrie = toNode t ∧ Keyed 64 t ∧
    Trie.View (Hides keccak) w t
  storage : ∀ address trie, witness.storageTries address = some trie →
    ∃ w t, trie = toNode w ∧ F.storageTrie address = toNode t ∧ Keyed 64 t ∧
      Trie.View (Hides keccak) w t

/-- An account that can be read from the witness is that of the world. -/
theorem getRlp_shown (hworld : world.HeldBy keccak accounts F)
    (hstate : ∃ w t, witness.stateTrie = toNode w ∧ F.stateTrie = toNode t ∧ Keyed 64 t ∧
      Trie.View (Hides keccak) w t) {address : B256} {account : Option TrieAccount}
    (h : witness.stateTrie.getRlp address.bytes = .ok account) : accounts address = account := by
  obtain ⟨w, t, hw, ht, -, hview⟩ := hstate
  have hfull := getRlp_accounts hworld.state address
  rw [hw, MptNode.getRlp] at h
  rw [ht, MptNode.getRlp] at hfull
  cases hget : (toNode w).get address.bytes with
  | error e =>
      rw [hget] at h
      cases h
  | ok found =>
      rw [get_of_view hview hget] at hfull
      rw [hget] at h
      exact Except.ok.inj (hfull.symm.trans h)

/-- A witness with the root of a world, whose storage tries have the roots of their accounts. -/
theorem shown_of_roots (hworld : world.HeldBy keccak accounts F) (hwritten : witness.Written)
    (hapart : HashesApart keccak witness.toEthereumState F)
    (hroot : witness.stateRoot keccak = F.stateRoot keccak)
    (hmatch : StorageRootsMatch keccak witness.toEthereumState) : Shown keccak witness F := by
  have hstate : ∃ w t, witness.stateTrie = toNode w ∧ F.stateTrie = toNode t ∧ Keyed 64 t ∧
      Trie.View (Hides keccak) w t := by
    obtain ⟨t, ht, hkeyed⟩ := hworld.keyed_state
    have hinj := hapart.injective.mono fun _ h => .inr (.inl h)
    rw [EthereumState.stateRoot, EthereumState.stateRoot, ht] at hroot
    rw [ht] at hinj
    obtain ⟨w, hw, hview⟩ := hwritten.state.view hapart.empty hkeyed hinj hroot
    exact ⟨w, t, hw, ht, hkeyed, hview⟩
  refine ⟨hstate, fun address trie htrie => ?_⟩
  obtain ⟨t, ht, hkeyed⟩ := hworld.keyed_storage address
  obtain ⟨account, hread, haccount⟩ := hmatch address trie htrie
  have hstored := getRlp_shown hworld hstate hread
  have hhash : trie.hash keccak = (toNode t).hash keccak := by
    rw [← haccount, ← ht]
    cases account with
    | none =>
        rw [hworld.storageTrie_absent hstored]
        rfl
    | some account => exact hworld.storageRoot hstored
  have hinj : Set.InjOn keccak {encoded | encoded ∈
      trie.encodings keccak ++ (toNode t).encodings keccak} := by
    refine hapart.injective.mono fun _ h => .inr (.inr ⟨address, ?_⟩)
    rw [EthereumState.storageTrie, htrie, ht]
    exact h
  obtain ⟨w, hw, hview⟩ := (hwritten.storage address trie htrie).view hapart.empty hkeyed hinj hhash
  exact ⟨w, t, hw, ht, hkeyed, hview⟩

/-- A slot that can be read from the witness is that of the world. -/
theorem getRlpU256_shown (hworld : world.HeldBy keccak accounts F)
    (hshown : Shown keccak witness F) {address key : B256} {trie : MptNode}
    (htrie : witness.storageTries address = some trie) {value : Option U256}
    (h : trie.getRlpU256 key.bytes = .ok value) : world.slot address key = value.getD 0 := by
  obtain ⟨w, t, rfl, ht, -, hview⟩ := hshown.storage address trie htrie
  have hfull := (hworld.builds_storageTrie address).get key.bytes
  rw [ht, onWords_bytes] at hfull
  cases hget : (toNode w).get key.bytes with
  | error e =>
      rw [MptNode.getRlpU256, hget] at h
      cases h
  | ok found =>
      rw [get_of_view hview hget] at hfull
      rw [Except.ok.inj hfull] at hget
      obtain ⟨_, hread, hvalue⟩ := MptNode.getRlpU256_slotValue hget
      rw [h] at hread
      cases hread
      exact hvalue.symm

/-- The entries of an honest trie are the values of its map. -/
theorem entry_eq_of_builds {contents : Bytes → Option Bytes} {t : NibbleTrie}
    (h : Builds contents (toNode t)) (ht : Keyed 64 t) (key : Bytes) :
    t.entry (toNibs key) = (contents key).map .inl := by
  have hget := h.get key
  rw [MptNode.get, getInternal_toNode, ht.lookup] at hget
  rw [← Except.ok.inj hget]
  cases he : t.entry (toNibs key) with
  | none => rfl
  | some x =>
      cases x with
      | inl v => rfl
      | inr d => exact (ht.opened _ d he).elim

theorem hash_ne_empty (hapart : HashesApart keccak witness.toEthereumState F) {address : B256}
    {t : NibbleTrie} (ht : F.storageTrie address = toNode t) (hkeyed : Keyed 64 t)
    (hne : t ≠ .null) : (toNode t).hash keccak ≠ EMPTY_ROOT := by
  have hencoded := MptNode.encode_mem_encodings keccak (isDigest_toNode hkeyed.opened.ne_stub)
  exact mt (hkeyed.eq_null_of_hash hapart.empty hapart.injective (.inl rfl)
    (.inr (.inr ⟨address, List.mem_append_right _ (ht ▸ hencoded)⟩))) hne

/-- The witness and the full tries side by side, as the update needs them. -/
theorem Shown.tracks (hshown : Shown keccak witness F) (hworld : world.HeldBy keccak accounts F)
    (hapart : HashesApart keccak witness.toEthereumState F) (pending : List B256) :
    ∃ w t, Tracks keccak pending witness.toEthereumState F w t := by
  obtain ⟨w, t, hw, ht, hkeyed, hview⟩ := hshown.state
  refine ⟨w, t, hw, ht, hview, hkeyed.canonical, hkeyed.opened, fun address _ => ?_⟩
  have hstorage : ∃ s, F.storageTrie address = toNode s ∧ Keyed 64 s ∧
      (witness.storageTrie address = .Null ∨
        ∃ x, witness.storageTrie address = toNode x ∧ Trie.View (Hides keccak) x s) := by
    have hown : witness.storageTrie address = (witness.storageTries address).getD .Null := rfl
    rw [hown]
    cases htrie : witness.storageTries address with
    | none =>
        obtain ⟨s, hs, hskeyed⟩ := hworld.keyed_storage address
        exact ⟨s, hs, hskeyed, .inl rfl⟩
    | some trie =>
        obtain ⟨x, s, rfl, hs, hskeyed, hxview⟩ := hshown.storage address trie htrie
        exact ⟨s, hs, hskeyed, .inr ⟨x, rfl, hxview⟩⟩
  obtain ⟨s, hs, hskeyed, hpart⟩ := hstorage
  have hentry := entry_eq_of_builds (ht ▸ hworld.state) hkeyed address.bytes
  rw [accountContents, onWords_bytes] at hentry
  refine ⟨s, hs, hskeyed.canonical, hpart, fun hne => ?_, ?_⟩
  · refine ⟨hash_ne_empty hapart hs hskeyed hne, ?_⟩
    rw [← hs]
    exact hapart.nonzero address
  · cases haccount : accounts address with
    | none =>
        rw [haccount] at hentry
        have hnull := hworld.storageTrie_absent haccount
        rw [hs] at hnull
        exact .inl ⟨hentry, toNode_eq_null hnull⟩
    | some account =>
        rw [haccount] at hentry
        refine .inr ⟨account, hentry, ?_⟩
        rw [← hs]
        exact hworld.storageRoot haccount

/-- An update of the witness that succeeds without a collapse onto hidden nodes leads to the root
of the world after the block. -/
theorem Shown.update (hshown : Shown keccak witness F) (hworld : world.HeldBy keccak accounts F)
    (hapart : HashesApart keccak witness.toEthereumState F) {post : HashedPostState}
    (haccounts : (post.accounts.map Prod.fst).Nodup)
    (hslots : ∀ address, ((post.storageOf address).storage.map Prod.fst).Nodup)
    (hsafe : SafeUpdate keccak post witness.toEthereumState F post.accounts)
    {state : EthereumState} (h : witness.update keccak post = .ok state) :
    (world.after post).IsStateRoot keccak (state.stateRoot keccak) := by
  obtain ⟨w, t, htracks⟩ := hshown.tracks hworld hapart (post.accounts.map Prod.fst)
  obtain ⟨F', hF', hroot⟩ := updateAccounts_tracks post.accounts htracks haccounts hsafe h
  obtain ⟨F'', hF'', hafter⟩ := hworld.update hapart.nonzero haccounts hslots
  rw [EthereumState.update, hF'] at hF''
  cases hF''
  rwa [hroot]

end State

section Answers

variable {keccak : Bytes → B256}

/-- Answers carry over from one database to another if those of its references do. -/
theorem answer_of_refs {first second : DatabaseRef Option}
    (hbasic : ∀ address info, first.basicRef address = some info →
      second.basicRef address = some info)
    (hcode : ∀ hash code, first.codeByHashRef hash = some code →
      second.codeByHashRef hash = some code)
    (hstorage : ∀ address index value, first.storageRef address index = some value →
      second.storageRef address index = some value)
    (hblock : ∀ number hash, first.blockHashRef number = some hash →
      second.blockHashRef number = some hash)
    (request : Request) (response : Response request) (h : first.answer request = some response) :
    second.answer request = some response := by
  cases request with
  | account address =>
      obtain ⟨info, hinfo, hrest⟩ := Option.bind_eq_some_iff.mp h
      exact Option.bind_eq_some_iff.mpr ⟨info, hbasic address info hinfo, hrest⟩
  | code address =>
      obtain ⟨info, hinfo, hrest⟩ := Option.bind_eq_some_iff.mp h
      refine Option.bind_eq_some_iff.mpr ⟨info, hbasic address info hinfo, ?_⟩
      cases info with
      | none => exact hrest
      | some info =>
          obtain ⟨balance, nonce, codeHash, code⟩ := info
          cases code with
          | some code => exact hrest
          | none =>
              by_cases hempty : codeHash = KECCAK_EMPTY
              · exact (if_pos hempty).trans ((if_pos hempty).symm.trans hrest)
              · exact (if_neg hempty).trans
                  (hcode codeHash response ((if_neg hempty).symm.trans hrest))
  | storage address index =>
      obtain ⟨info, hinfo, hrest⟩ := Option.bind_eq_some_iff.mp h
      refine Option.bind_eq_some_iff.mpr ⟨info, hbasic address info hinfo, ?_⟩
      cases info with
      | none => exact hrest
      | some info => exact hstorage address index response hrest
  | blockHash number => exact hblock number response h

/-- What the client reads is what is there. -/
theorem answer_shown {world : World} {accounts : B256 → Option TrieAccount}
    {witness : WitnessState} {F : EthereumState} (hworld : world.HeldBy keccak accounts F)
    (hshown : Shown keccak witness F) {blockHashes hashes : BlockHashes}
    (hhashes : ∀ number hash, blockHashes number = some hash → hashes number = some hash)
    {bytecodes : List Bytes} {code : B256 → Option Bytes}
    (hcode : ∀ bytes ∈ bytecodes, code (codeHashSlow keccak bytes) = some bytes)
    (request : Request) (response : Response request)
    (h : ((TrieDB.mk witness.toEthereumState blockHashes
      (bytecodesByHash keccak bytecodes)).databaseRef keccak).answer request = some response) :
    ((Context.mk world code hashes).databaseRef keccak).answer request = some response := by
  refine answer_of_refs ?_ ?_ ?_ hhashes request response h
  · intro address info hinfo
    simp only [TrieDB.databaseRef, TrieDB.basicRef] at hinfo
    split at hinfo
    · cases hinfo
    · next account hread =>
        cases hinfo
        have hstored := getRlp_shown hworld hshown.state hread
        have hbasics := hworld.stored.basics (hashAddress keccak address)
        simp only [Context.databaseRef, ← hbasics, hstored, Option.map_map]
        rfl
  · intro hash bytes hbytes
    obtain ⟨hmem, rfl⟩ := bytecodesByHash_eq_some hbytes
    exact hcode bytes hmem
  · intro address index value hvalue
    obtain ⟨trie, htrie, hread⟩ := Option.bind_eq_some_iff.mp hvalue
    split at hread
    · cases hread
    · next found hfound =>
        cases hread
        rw [← getRlpU256_shown hworld hshown htrie hfound]
        rfl

end Answers

section Client

variable {Body Output Failure : Type} {config : EvmConfig Body Output Failure}
  {keccak : Bytes → B256} {world : World} {accounts : B256 → Option TrieAccount} {F : EthereumState}
  {code : B256 → Option Bytes} {chain : Nat → Header} {input : ClientInput Body}

/-- What is assumed of an input beside the checks of the client: its tries are written as hosts
write them, its codes are in the table of codes, and no two headers have one hash. -/
structure Admissible (keccak : Bytes → B256) (code : B256 → Option Bytes) (chain : Nat → Header)
    (input : ClientInput Body) : Prop where
  written : input.parentState.Written
  code : ∀ bytes ∈ input.bytecodes, code (codeHashSlow keccak bytes) = some bytes
  ancestry : Ancestry keccak input.currentBlock chain
  headers : Set.InjOn keccak {encoded | (∃ header ∈ input.ancestorHeaders,
    header.encode = encoded) ∨ ∃ i < input.currentBlock.number.toNat, (chain i).encode = encoded}
  genesis : ∀ header ∈ input.ancestorHeaders, header.hashSlow keccak ≠ (chain 0).parentHash

/-- The execution of a block on a world. -/
def runOn (config : EvmConfig Body Output Failure) (keccak : Bytes → B256)
    (code : B256 → Option Bytes) (chain : Nat → Header) (world : World) (block : Block Body) :
    Option (Except Failure Output) :=
  config.execute
    ((Context.mk world code (hashesBelow keccak block.header chain)).databaseRef keccak) block

theorem Executed.sound {db : TrieDB} {output : Output} {state : EthereumState}
    {hashes : BridgeHashes} (h : Executed config keccak input db output state hashes)
    (hworld : world.HeldBy keccak accounts F)
    (hroot : ∀ parent ∈ input.ancestorHeaders.head?, parent.stateRoot = F.stateRoot keccak)
    (hinput : Admissible keccak code chain input)
    (hapart : HashesApart keccak input.parentState.toEthereumState F) :
    runOn config keccak code chain world input.block = some (.ok output) ∧
      (SafeUpdate keccak (config.hashedPostState output) input.parentState.toEthereumState F
          (config.hashedPostState output).accounts →
        (world.after (config.hashedPostState output)).IsStateRoot keccak
          input.currentBlock.stateRoot) := by
  obtain ⟨parent, rest, blockHashes, hparents, hparent, hmatch, hhashes, rfl⟩ :=
    witnessDb_eq_ok.mp h.witness
  have hstate : input.parentState.stateRoot keccak = F.stateRoot keccak := by
    rw [← hparent]
    exact hroot parent (by rw [hparents]; rfl)
  have hshown := shown_of_roots hworld hinput.written hapart hstate hmatch
  constructor
  · have hrun := h.run
    rw [config.execute_eq] at hrun
    rw [runOn, config.execute_eq]
    refine Program.run_eq_some_of_answers (fun request response hanswer => ?_) hrun
    exact answer_shown hworld hshown (fun number hash hnumber =>
      blockHashes_sound hinput.ancestry hinput.headers hinput.genesis hhashes hnumber) hinput.code
      request response hanswer
  · intro hsafe
    rw [← h.root]
    exact hshown.update hworld hapart (config.accounts_nodup output) (config.slots_nodup output)
      hsafe h.update

/-- Two witnesses for one block do not give different results. -/
theorem execute_unique {input' : ClientInput Body} {result result' : Header × BridgeHashes}
    (h : execute config keccak input = .ok result) (h' : execute config keccak input' = .ok result')
    (hblock : input.block = input'.block) (hworld : world.HeldBy keccak accounts F)
    (hroot : ∀ parent ∈ input.ancestorHeaders.head?, parent.stateRoot = F.stateRoot keccak)
    (hroot' : ∀ parent ∈ input'.ancestorHeaders.head?, parent.stateRoot = F.stateRoot keccak)
    (hinput : Admissible keccak code chain input) (hinput' : Admissible keccak code chain input')
    (hapart : HashesApart keccak input.parentState.toEthereumState F)
    (hapart' : HashesApart keccak input'.parentState.toEthereumState F) : result = result' := by
  obtain ⟨header, hashes⟩ := result
  obtain ⟨header', hashes'⟩ := result'
  obtain ⟨⟨_, output, _, hexecuted⟩, rfl⟩ := execute_eq_ok.mp h
  obtain ⟨⟨_, output', _, hexecuted'⟩, rfl⟩ := execute_eq_ok.mp h'
  have hrun := (hexecuted.sound hworld hroot hinput hapart).1
  rw [hblock, (hexecuted'.sound hworld hroot' hinput' hapart').1] at hrun
  cases hrun
  have hhashes := hexecuted.hashes.symm.trans hexecuted'.hashes
  have hheader : input.currentBlock = input'.currentBlock := congrArg Block.header hblock
  rw [hheader, Option.some.inj hhashes]

end Client

/-- When the client accepts a block on a witness with the root of a world, the block has an
execution on the world with the same output. The bridge hashes are those of this output, and,
unless a deletion collapses a branch onto a node that the witness hides, the state root of the
returned header is that of the world after the block. -/
theorem client_executes_world {Body Output Failure : Type} (config : EvmConfig Body Output Failure)
    (keccak : Bytes → B256) (input : ClientInput Body) (header : Header) (hashes : BridgeHashes)
    (hrun : execute config keccak input = .ok (header, hashes)) (world : World)
    (accounts : B256 → Option TrieAccount) (F : EthereumState)
    (hworld : world.HeldBy keccak accounts F)
    (hroot : ∀ parent ∈ input.ancestorHeaders.head?, parent.stateRoot = F.stateRoot keccak)
    (code : B256 → Option Bytes) (chain : Nat → Header)
    (hinput : Admissible keccak code chain input)
    (hapart : HashesApart keccak input.parentState.toEthereumState F) :
    ∃ output, runOn config keccak code chain world input.block = some (.ok output) ∧
      BRIDGE_INFO.calculateBridgeHashes keccak (config.receipts output) = some hashes ∧
      (SafeUpdate keccak (config.hashedPostState output) input.parentState.toEthereumState F
          (config.hashedPostState output).accounts →
        (world.after (config.hashedPostState output)).IsStateRoot keccak header.stateRoot) := by
  obtain ⟨⟨db, output, state, hexecuted⟩, rfl⟩ := execute_eq_ok.mp hrun
  obtain ⟨houtput, hafter⟩ := hexecuted.sound hworld hroot hinput hapart
  exact ⟨output, houtput, hexecuted.hashes, hafter⟩

section Sample

/-- One account with one slot, at the address and index whose hashes are zero. -/
def slotWorld : World where
  account address := if address = B256.zero then some ⟨1, 0, KECCAK_EMPTY⟩ else none
  slot address key := if address = B256.zero ∧ key = B256.zero then 1 else 0
  slot_absent address h key := by
    have hne : address ≠ B256.zero := by
      rintro rfl
      simp at h
    simp [hne]

def slotAccounts : B256 → Option TrieAccount :=
  Function.update (fun _ => none) B256.zero (some slotAccount)

def slotTries : EthereumState :=
  ⟨slotState.stateTrie, fun address => some (slotState.storageTrie address)⟩

theorem slotContents_slotWorld (address : B256) : slotWorld.slotContents address =
    if address = B256.zero then Function.update (fun _ => none) B256.zero (some [1])
    else fun _ => none := by
  funext key
  by_cases haddress : address = B256.zero
  · by_cases hkey : key = B256.zero
    · subst haddress hkey
      rw [if_pos rfl, Function.update_self]
      decide +kernel
    · rw [if_pos haddress, Function.update_of_ne hkey]
      simp [World.slotContents, slotWorld, hkey, MptNode.slotValue]
  · rw [if_neg haddress]
    simp [World.slotContents, slotWorld, haddress, MptNode.slotValue]

theorem slotWorld_heldBy :
    slotWorld.HeldBy slotKeccak slotAccounts slotTries where
  stored := by
    constructor
    · intro address
      by_cases haddress : address = B256.zero
      · subst haddress
        rfl
      · simp [slotAccounts, slotWorld, haddress]
    · intro address account haccount
      by_cases haddress : address = B256.zero
      · subst haddress
        rw [slotAccounts, Function.update_self] at haccount
        cases haccount
        rw [slotContents_slotWorld, if_pos rfl]
        exact ⟨slotLeaf, builds_slot B256.zero (by simp), by decide +kernel⟩
      · simp [slotAccounts, haddress] at haccount
  state := by
    have hnone : accountContents (fun _ => none) = fun _ => none := onWords_none
    rw [slotAccounts, ← update_accountContents, hnone]
    exact builds_single B256.zero slotAccount.encode_ne_nil
  storage address := by
    refine ⟨_, rfl, ?_⟩
    rw [storageTrie_slotState, slotContents_slotWorld]
    split_ifs
    · exact builds_slot B256.zero (by simp)
    · rw [onWords_none]
      exact Builds.empty

/-- The account and its slot are read, and the account gets a balance. -/
def slotConfig : EvmConfig Unit Unit Unit where
  tryIntoRecovered _ := true
  validateHeader _ := .ok ()
  validateBodyAgainstHeader _ _ := .ok ()
  validateHeaderAgainstParent _ _ := .ok ()
  requests _ := .query (.account (.zero 20)) fun (info : Option AccountBasics) =>
    .query (.storage (.zero 20) 0) fun (value : U256) =>
      .done (if info.isSome ∧ value = 1 then .ok () else .error ())
  validateBlockPostExecution _ _ := .ok ()
  receipts _ := []
  hashedPostState _ := ⟨[(B256.zero, some ⟨2, 5, none⟩)], []⟩
  accounts_nodup _ := by simp
  slots_nodup _ _ := by simp [HashedPostState.storageOf]

def slotParent : Header :=
  { blankHeader 0 (.ofNat 1) with
    stateRoot := slotState.stateRoot slotKeccak }

def slotInput : ClientInput Unit where
  currentBlock := blankHeader 1 B256.zero
  ancestorHeaders := [slotParent]
  length_lt := by decide
  body := ()
  parentState := ⟨slotState, [B256.zero], by
    intro address
    by_cases haddress : address = B256.zero
    · simp [slotState, haddress]
    · simp [slotState, haddress]⟩
  bytecodes := []

def slotChain : Nat → Header
  | 0 => slotParent
  | _ => blankHeader 1 B256.zero

theorem written_leaf (path : List Nibble) (value : Bytes) :
    Written (.Leaf (toEncodedPath path true) value) :=
  ⟨by simp, .leaf path value, rfl⟩

theorem slotParent_hash : slotParent.hashSlow slotKeccak = B256.zero := by
  decide +kernel

theorem slotInput_admissible :
    Admissible slotKeccak (fun _ => none) slotChain slotInput where
  written := by
    refine ⟨written_leaf _ _, fun address trie htrie => ?_⟩
    by_cases haddress : address = B256.zero
    · subst haddress
      simp only [slotInput, slotState, Function.update_self, Option.some.injEq] at htrie
      rw [← htrie]
      exact written_leaf _ _
    · simp [slotInput, slotState, haddress] at htrie
  code := by simp [slotInput]
  ancestry := by
    refine ⟨rfl, fun i hi => ?_⟩
    obtain rfl : i = 0 := Nat.lt_one_iff.mp hi
    exact slotParent_hash.symm
  headers := by
    refine Set.Subsingleton.injOn (fun a ha b hb => ?_) _
    have hsingle : ∀ encoded, ((∃ header ∈ slotInput.ancestorHeaders, header.encode = encoded) ∨
        ∃ i < slotInput.currentBlock.number.toNat, (slotChain i).encode = encoded) →
        encoded = slotParent.encode := by
      rintro encoded (⟨header, hheader, rfl⟩ | ⟨i, hi, rfl⟩)
      · rw [List.mem_singleton.mp hheader]
      · obtain rfl : i = 0 := Nat.lt_one_iff.mp hi
        rfl
    rw [hsingle a ha, hsingle b hb]
  genesis := by decide +kernel

theorem slotInput_apart :
    HashesApart slotKeccak slotInput.parentState.toEthereumState slotTries where
  empty := by decide +kernel
  injective := by
    refine injOn_slotKeccak.mono ?_
    have hstate : ∀ encoded ∈ slotState.stateTrie.encodings slotKeccak ++
        slotState.stateTrie.encodings slotKeccak,
        encoded ∈ slotStateDigests.map Prod.fst := by decide +kernel
    have hstorage : ∀ address, ∀ encoded ∈
        (slotState.storageTrie address).encodings slotKeccak ++
          (slotState.storageTrie address).encodings slotKeccak,
        encoded ∈ slotStateDigests.map Prod.fst := by
      intro address
      rw [storageTrie_slotState]
      split_ifs <;> decide +kernel
    rintro encoded (rfl | hmem | ⟨address, hmem⟩)
    · decide +kernel
    · exact hstate encoded hmem
    · exact hstorage address encoded hmem
  nonzero address := by
    have hhash : (slotState.storageTrie address).hash slotKeccak ≠ B256.zero := by
      rw [storageTrie_slotState]
      split_ifs <;> decide +kernel
    exact hhash

/-- The block is accepted, and its header has the root of the world with the new balance. -/
theorem client_executes_world_slot :
    ∃ header hashes, execute slotConfig slotKeccak slotInput = .ok (header, hashes) ∧
      (slotWorld.after (slotConfig.hashedPostState ())).IsStateRoot slotKeccak
        header.stateRoot := by
  have hok : (execute slotConfig slotKeccak slotInput).isOk = true := by decide +kernel
  obtain ⟨⟨header, hashes⟩, hrun⟩ := exists_of_isOk hok
  refine ⟨header, hashes, hrun, ?_⟩
  obtain ⟨output, -, -, hafter⟩ := client_executes_world slotConfig slotKeccak slotInput header
    hashes hrun slotWorld slotAccounts slotTries slotWorld_heldBy
    (by rintro parent hparent; cases hparent; rfl) (fun _ => none) slotChain slotInput_admissible
    slotInput_apart
  exact hafter ⟨fun _ _ _ _ => trivial, fun _ _ _ _ => trivial⟩

end Sample

end FluentStf.Executor
