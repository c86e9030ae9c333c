import FluentStf.Executor.HostExecutor

/-! The host makes an input for every valid block. It carries out the block a second time, on the
part of the state that two multiproofs show, and this gives the state root of the full state. -/
namespace FluentStf.Executor

open Mpt

section

variable {Body Output Failure : Type} {config : HostConfig Body Output Failure}
  {reader : RlpReader} {keccak : Bytes → B256} {world : World}
  {accounts accounts' : B256 → Option TrieAccount}
  {F F' : EthereumState} {post : HashedPostState} {db : RecordingDb}

theorem ancestors_of_headers {headers : List Header} (h : db.ancestorHeaders = .ok headers) :
    ∃ ancestors, db.ancestors = .ok ancestors := by
  rw [RecordingDb.ancestors]
  split
  · next e herror =>
      rw [h] at herror
      cases herror
  · exact ⟨_, rfl⟩

/-- The sparse state of the host, given the two proofs. -/
theorem state_of_multiproofs {provider : StateProvider} {before after : MultiProof}
    (hprovider : db.factory.beforeProvider db.blockNumber db.parentHash = .ok provider)
    (hbefore : provider.multiproof ⟨[], []⟩ (db.getTargets keccak post) = .ok before)
    (hafter : provider.multiproof post (db.getTargets keccak post) = .ok after) {fuel : Nat}
    {state : EthereumState}
    (hstate : transitionMultiproofsToTries reader keccak fuel db.stateRoot before after =
      .ok state) :
    ∃ witness, db.state keccak reader fuel post = .ok witness ∧
      witness.toEthereumState = state := by
  have hproofs : db.multiproofs keccak post = .ok (before, after) := by
    simp only [RecordingDb.multiproofs, bind_eq_ok, mapError_eq_ok]
    exact ⟨provider, hprovider, before, hbefore, after, hafter, rfl⟩
  refine ⟨⟨state, proofAddresses before, mem_proofAddresses hstate⟩, ?_, rfl⟩
  rw [RecordingDb.state, bind_eq_ok]
  refine ⟨_, hproofs, ?_⟩
  change db.witnessOf keccak reader fuel before after = _
  rw [RecordingDb.witnessOf]
  split
  · next herror =>
      rw [hstate] at herror
      cases herror
  · next hok =>
      rw [hstate] at hok
      cases hok
      rfl

/-- On the state from the two proofs the changes of the block succeed, and lead to the root after
the block. -/
theorem update_of_targets {before after : MultiProof}
    (hproved : Proved keccak reader F F' (db.getTargets keccak post) before after)
    (hdistinct : post.Distinct) (hworld : world.HeldBy keccak accounts F)
    (hafter : (world.after post).HeldBy keccak accounts' F')
    (hzero : ∀ address, (F.storageTrie address).hash keccak ≠ B256.zero)
    (htargets : db.getTargets keccak post ≠ []) :
    ∃ bound state state', (∀ fuel, bound ≤ fuel →
        transitionMultiproofsToTries reader keccak fuel (F.stateRoot keccak) before after =
          .ok state) ∧
      state.update keccak post = .ok state' ∧
      state'.stateRoot keccak = F'.stateRoot keccak := by
  obtain ⟨bound, state, hstate⟩ := hproved.ends htargets
  have hnodup := @RecordingDb.getTargets_nodup keccak db post
  have hupdatable : Updatable keccak post state F F' := by
    refine updatable_of_multiproofs hproved hworld hafter hzero hnodup htargets ?_ ?_ hstate
    · intro address haddress
      obtain ⟨change, hchange, rfl⟩ := List.mem_map.mp haddress
      obtain ⟨slots, htarget, -⟩ := @RecordingDb.exists_changed_target keccak db post _ hchange
      exact List.mem_map_of_mem htarget
    · intro address slots account htarget hmem _
      obtain ⟨slots', htarget', hsub⟩ := @RecordingDb.exists_changed_target keccak db post _ hmem
      obtain rfl := Targets.unique hnodup htarget' htarget
      exact hsub
  obtain ⟨state', hupdate, hroot⟩ := hupdatable.update hdistinct hworld hafter
  exact ⟨bound, state, state', fun fuel hfuel => transition_mono hfuel hstate, hupdate, hroot⟩

end

/-- Take a block that can be executed on the node of the host, and whose header has the state root
and the bloom filter of this execution. If the node proves the touched accounts and slots, the host
makes an input for the client: it does not stop in the update, nor at the check of the root. -/
theorem host_executes_valid_block {Body Output Failure : Type}
    (config : HostConfig Body Output Failure) (keccak : Bytes → B256)
    (hempty : keccak [EMPTY_STRING_CODE] = EMPTY_ROOT) (block : Block Body)
    (factory : ProviderFactory) (chain : Nat → Header)
    (hchain : factory.toProvider.Serves keccak block.header chain)
    (hpos : 1 ≤ block.header.number.toNat)
    (world : World) (accounts accounts' : B256 → Option TrieAccount) (F F' : EthereumState)
    (hworld : world.HeldBy keccak accounts F)
    (hzero : ∀ address, (F.storageTrie address).hash keccak ≠ B256.zero)
    (start db : RecordingDb) (output : Output)
    (hnew : RecordingDb.new factory block.header.number block.header.parentHash
      (F.stateRoot keccak) = .ok start)
    (hrun : config.execute RecordingDb.databaseRef block start = .ok (.ok output, db))
    (hrecovered : config.tryIntoRecovered block = true)
    (hheader : config.validateHeader (sealSlow keccak block.header) = .ok ())
    (hpost : config.validateBlockPostExecution block output = .ok ())
    (hafter : (world.after (config.hashedPostState output)).HeldBy keccak accounts' F')
    (hvalid : deriveHeader block.header (F'.stateRoot keccak) (config.logsBloom output) =
      block.header)
    (htargets : db.getTargets keccak (config.hashedPostState output) ≠ [])
    (provider : StateProvider)
    (hprovider : factory.beforeProvider block.header.number block.header.parentHash = .ok provider)
    (before after : MultiProof)
    (hbefore : provider.multiproof ⟨[], []⟩
      (db.getTargets keccak (config.hashedPostState output)) = .ok before)
    (hproves : provider.multiproof (config.hashedPostState output)
      (db.getTargets keccak (config.hashedPostState output)) = .ok after)
    (hproof : IsMultiproof keccak F (db.getTargets keccak (config.hashedPostState output)) before)
    (hproof' : IsMultiproof keccak F' (db.getTargets keccak (config.hashedPostState output)) after)
    (hinj : Set.InjOn keccak (hashedEncodings keccak F F' after)) :
    ∃ bound, ∀ fuel, bound ≤ fuel → ∃ input, input.block = block ∧
      executeExexWithBlock config keccak fuel block (F.stateRoot keccak) factory = .ok input := by
  have hdistinct : (config.hashedPostState output).Distinct :=
    ⟨config.accounts_nodup output, config.slots_nodup output⟩
  have hproved : Proved keccak config.reader F F' _ before after :=
    ⟨config.readsBack, hempty, hworld.complete, hafter.complete, hproof, hproof', hinj⟩
  obtain ⟨bound, state, state', htries, hupdate, hroot⟩ :=
    update_of_targets hproved hdistinct hworld hafter hzero htargets
  obtain ⟨provider', hprovider', hstart⟩ := new_eq_ok hnew
  rw [hprovider] at hprovider'
  cases hprovider'
  have hdb := faithful_of_run hstart hrun
  have hfactory : db.factory = factory := congrArg DbContext.factory hdb.setup
  have hhash : db.parentHash = block.header.parentHash := congrArg DbContext.parentHash hdb.setup
  have hdbRoot : db.stateRoot = F.stateRoot keccak := congrArg DbContext.stateRoot hdb.setup
  obtain ⟨_, -, -, hheaders⟩ := hchain.ancestorHeaders hpos hdb.providerFactory hdb.blockNumber
  obtain ⟨ancestors, hancestors⟩ := ancestors_of_headers hheaders
  refine ⟨bound, fun fuel hfuel => ?_⟩
  obtain ⟨witness, hwitness, rfl⟩ := state_of_multiproofs
    (by rw [hfactory, hdb.blockNumber, hhash, hprovider]) hbefore hproves
    (by rw [hdbRoot]; exact htries fuel hfuel)
  have hstateRoot : state'.stateRoot keccak = block.header.stateRoot := by
    rw [hroot, ← congrArg Header.stateRoot hvalid]
    rfl
  have hderived : (deriveHeader block.header (state'.stateRoot keccak)
      (config.logsBloom output)).hashSlow keccak = block.header.hashSlow keccak := by
    rw [hroot, hvalid]
  simp only [executeExexWithBlock, executeOn, verifyHeaderHash, bind_eq_ok, mapError_eq_ok,
    require_eq_ok]
  exact ⟨_, rfl, start, hnew, (), hrecovered, (), hheader, (output, db),
    executeRecording_eq_ok.mpr hrun, (), hpost, witness, hwitness, state', hupdate, (), hstateRoot,
    ancestors, hancestors, (), hderived, rfl⟩

section Sample

/-- The only account is removed. -/
def removal : HashedPostState := ⟨[(B256.zero, none)], []⟩

theorem slotWorld_emptied (keccak : Bytes → B256) :
    (slotWorld.after removal).HeldBy keccak (fun _ => none) World.emptyTries := by
  refine World.heldBy_emptyTries fun address => ?_
  by_cases haddress : address = B256.zero
  · subst haddress
    rfl
  · simp [World.after, removal, slotWorld, haddress, lookup_cons_of_ne]

theorem removal_proof' : IsMultiproof slotKeccak World.emptyTries [(B256.zero, [B256.zero])]
    (noProof ⟨EMPTY_ROOT, [[EMPTY_STRING_CODE]]⟩) := by
  have h := isMultiproof_noProof slotKeccak (null_report _)
  exact ⟨h.accounts, h.storages, h.targets⟩

/-- The host makes an input for the block that removes the account. -/
theorem host_executes_removing : ∃ fuel input,
    executeExexWithBlock removingConfig slotKeccak fuel removingBlock
      (slotTries.stateRoot slotKeccak) slotFactory = .ok input := by
  obtain ⟨input, hhost⟩ := removing_host
  obtain ⟨start, db, output, _, h⟩ := hostExecuted_of_ok hhost
  have htargets := removing_targets ⟨start, h.new, h.run⟩
  obtain ⟨bound, hrun⟩ := host_executes_valid_block removingConfig slotKeccak
    slotInput_apart.empty removingBlock slotFactory removingChain slotFactory_serves (by decide)
    slotWorld slotAccounts (fun _ => none) slotTries World.emptyTries slotWorld_heldBy
    slotInput_apart.nonzero start db output h.new h.run h.recovered h.header h.post
    (slotWorld_emptied _) rfl (by rw [htargets]; simp) slotProvider rfl _ _
    (by rw [htargets]; rfl) (by rw [htargets]; rfl) (by rw [htargets]; exact slot_proof)
    (by rw [htargets]; exact removal_proof')
    (@injOn_slotState ⟨EMPTY_ROOT, [[EMPTY_STRING_CODE]]⟩ (.inr rfl))
  obtain ⟨input, -, hinput⟩ := hrun bound le_rfl
  exact ⟨bound, input, hinput⟩

end Sample

end FluentStf.Executor
