import SecureWorld.Foundations.PageWrites

/-! # The per-thread registry

`gen_perthread_seed.py` lists the writes that build a registry of services for CL4's constructors: a
linked list whose head is found through the per-thread context. The loader makes these writes for
one service.
-/
namespace SecureWorld.Loader
open Foundations
set_option autoImplicit false

/-! ## The generator -/

/-- An entry of `NODES`. -/
structure SeedNode where
  key1 : ℕ
  key2 : ℕ
  valueVm : Option ℕ
deriving DecidableEq

def seedRxPhys : ℕ := 0x10006884000

def seedBase : ℕ := 0xc0000000

/-- `phys`, with `RX_PHYS` for the first argument. -/
def seedPhys (rx vm : ℕ) : ℤ := rx + ((vm : ℤ) - seedBase)

def ctxOff : ℕ := 0x200
def regobjOff : ℕ := 0x400
def nodesOff : ℕ := 0x420
def nodeSz : ℕ := 0x20

/-- `*(uintN_t*)(dummypage + off) = value` -/
structure SeedWrite where
  off : ℕ
  size : ℕ
  value : ℤ
deriving DecidableEq

/-- The writes for the nodes from number `i` on. -/
def nodeWrites (rx page : ℕ) : ℕ → List SeedNode → List SeedWrite
  | _, [] => []
  | i, node :: rest =>
      let o := nodesOff + i * nodeSz
      let nxt := if rest = [] then 0 else page + nodesOff + (i + 1) * nodeSz
      let val := match node.valueVm with
        | some vm => seedPhys rx vm
        | none => 0
      ⟨o, 8, nxt⟩ :: ⟨o + 8, 4, node.key1⟩ :: ⟨o + 0x10, 4, node.key2⟩ :: ⟨o + 0x18, 8, val⟩ ::
        nodeWrites rx page (i + 1) rest

/-- The writes that `build` prints. Each node's line prints the first node's value, and there is no
hexadecimal text for none. -/
def seedBuild (rx page : ℕ) (nodes : List SeedNode) : Option (List SeedWrite) :=
  if (nodes.head?.any fun node => node.valueVm.isNone) then none
  else some (⟨ctxOff + 0x10, 8, page + regobjOff⟩ :: ⟨regobjOff, 8, page + nodesOff⟩ ::
    nodeWrites rx page 0 nodes)

def SeedWrite.bytes (w : SeedWrite) : Memory.PageWrite :=
  (w.off, leBytes w.size (w.value % 256 ^ w.size).toNat)

/-- The writes, made. -/
def seedMemory (mem : Memory) (page : ℕ) (ws : List SeedWrite) : Memory :=
  mem.writesAt (BitVec.ofNat 64 page) (ws.map SeedWrite.bytes)

theorem seedMemory_cons (mem : Memory) (page : ℕ) (w : SeedWrite) (ws : List SeedWrite) :
    seedMemory mem page (w :: ws) =
      seedMemory (mem.write (BitVec.ofNat 64 page + BitVec.ofNat 64 w.off) w.bytes.2) page ws := rfl

/-- `NODES` -/
def seedNodes : List SeedNode := [⟨2, 5, some 0xc06fece8⟩]

/-! ## The registry in memory -/

/-- What a lookup finds in a node. -/
structure Service where
  key1 : ℕ
  key2 : ℕ
  value : ℕ
deriving DecidableEq

def serviceAt (mem : Memory) (node : BitVec 64) : Service :=
  ⟨mem.load (node + 8) 4, mem.load (node + 0x10) 4, mem.load (node + 0x18) 8⟩

/-- The services in the list at `[[tpidr_el0 + 0x10] + 0]`, up to `fuel` of them. -/
def registry (mem : Memory) (fuel : ℕ) (tpidr : BitVec 64) : List Service :=
  let regobj := BitVec.ofNat 64 (mem.load (tpidr + 0x10) 8)
  (mem.walkList fuel (BitVec.ofNat 64 (mem.load regobj 8))).map (serviceAt mem)

/-- The service that a node stands for. -/
def SeedNode.service (rx : ℕ) (node : SeedNode) : Service where
  key1 := node.key1 % 2 ^ 32
  key2 := node.key2 % 2 ^ 32
  value := match node.valueVm with
    | some vm => (seedPhys rx vm % 2 ^ 64).toNat
    | none => 0

/-! ## Where the writes go -/

theorem SeedWrite.bytes_length (w : SeedWrite) : w.bytes.2.length = w.size := leBytes_length _ _

/-- The writes lie one behind the other. -/
theorem nodeWrites_ordered (rx page : ℕ) : ∀ (nodes : List SeedNode) (i : ℕ),
    (nodeWrites rx page i nodes).Pairwise (fun w v => w.off + w.size ≤ v.off) ∧
      ∀ w ∈ nodeWrites rx page i nodes, nodesOff + i * nodeSz ≤ w.off ∧
        w.off + w.size ≤ nodesOff + (i + nodes.length) * nodeSz
  | [], _ => ⟨List.Pairwise.nil, fun _ hw => absurd hw List.not_mem_nil⟩
  | node :: rest, i => by
      obtain ⟨hpair, hrange⟩ := nodeWrites_ordered rx page rest (i + 1)
      have hlater : ∀ w ∈ nodeWrites rx page (i + 1) rest, nodesOff + i * nodeSz + 0x20 ≤ w.off ∧
          w.off + w.size ≤ nodesOff + (i + (rest.length + 1)) * nodeSz := by
        intro w hw
        have hw' := hrange w hw
        simp only [nodeSz] at hw' ⊢
        omega
      simp only [nodeWrites, List.pairwise_cons, List.forall_mem_cons, List.length_cons]
      have hend : nodesOff + i * nodeSz + 0x20 ≤ nodesOff + (i + (rest.length + 1)) * nodeSz := by
        simp only [nodeSz]
        omega
      refine ⟨⟨⟨by omega, by omega, by omega, ?_⟩, ⟨by omega, by omega, ?_⟩, ⟨by omega, ?_⟩, ?_,
        hpair⟩, ⟨le_refl _, by omega⟩, ⟨by omega, by omega⟩, ⟨by omega, by omega⟩,
        ⟨by omega, by omega⟩, ?_⟩
      all_goals
        intro w hw
        have hw' := hlater w hw
        omega

theorem seedBuild_ok {rx page : ℕ} {nodes : List SeedNode} {ws : List SeedWrite}
    (h : seedBuild rx page nodes = some ws) :
    ws = ⟨ctxOff + 0x10, 8, page + regobjOff⟩ :: ⟨regobjOff, 8, page + nodesOff⟩ ::
      nodeWrites rx page 0 nodes := by
  rw [seedBuild] at h
  split_ifs at h
  exact (Option.some.inj h).symm

section Seed
variable {rx page : ℕ} {nodes : List SeedNode} {ws : List SeedWrite}
  (hbuild : seedBuild rx page nodes = some ws)
  (hroom : page + nodesOff + nodes.length * nodeSz < 2 ^ 64)
include hbuild hroom

theorem seed_apart : (ws.map SeedWrite.bytes).Pairwise Memory.WritesApart ∧
    ∀ w ∈ ws.map SeedWrite.bytes, w.1 + w.2.length < 2 ^ 64 := by
  obtain ⟨hpair, hrange⟩ := nodeWrites_ordered rx page nodes 0
  rw [seedBuild_ok hbuild, List.pairwise_map]
  simp only [nodesOff, nodeSz] at hrange hroom
  have hfar : ∀ w ∈ nodeWrites rx page 0 nodes, 0x420 ≤ w.off ∧ w.off + w.size < 2 ^ 64 := by
    intro w hw
    have hw' := hrange w hw
    omega
  constructor
  · simp only [List.pairwise_cons, List.forall_mem_cons, Memory.WritesApart, SeedWrite.bytes_length]
    refine ⟨⟨.inl (by simp [SeedWrite.bytes, ctxOff, regobjOff]), fun w hw => ?_⟩,
      fun w hw => ?_, hpair.imp fun h => .inl h⟩
    · exact .inl ((by decide : ctxOff + 0x10 + 8 ≤ 0x420).trans (hfar w hw).1)
    · exact .inl ((by decide : regobjOff + 8 ≤ 0x420).trans (hfar w hw).1)
  · rw [List.forall_mem_map]
    simp only [List.forall_mem_cons, SeedWrite.bytes_length]
    refine ⟨?_, ?_, fun w hw => (hfar w hw).2⟩
    · simp [SeedWrite.bytes, ctxOff]
    · simp [SeedWrite.bytes, regobjOff]

theorem seed_holds (mem : Memory) : ∀ w ∈ ws, (seedMemory mem page ws).Holds
    (BitVec.ofNat 64 page + BitVec.ofNat 64 w.off) w.bytes.2 := by
  obtain ⟨hapart, hfits⟩ := seed_apart hbuild hroom
  intro w hw
  exact Memory.holds_writesAt mem hfits hapart w.bytes (List.mem_map_of_mem hw)

end Seed

/-- The value of a write is read back. -/
theorem load_of_seed {mem : Memory} {page : BitVec 64} {w : SeedWrite}
    (h : mem.Holds (page + BitVec.ofNat 64 w.off) w.bytes.2) :
    mem.load (page + BitVec.ofNat 64 w.off) w.size = (w.value % 256 ^ w.size).toNat := by
  have hpos : (0 : ℤ) < 256 ^ w.size := Int.pow_pos (by omega)
  have hlow := Int.emod_nonneg w.value hpos.ne'
  have hlt := Int.emod_lt_of_pos w.value hpos
  refine h.load_leBytes ?_
  rw [← Int.ofNat_lt, Int.toNat_of_nonneg hlow]
  push_cast
  exact hlt

/-! ## What a walk finds -/

def nodeAddr (page i : ℕ) : BitVec 64 := BitVec.ofNat 64 (page + nodesOff + i * nodeSz)

/-- The list from node `i` on, once its writes are made. -/
theorem nodes_listAt {mem : Memory} (rx page : ℕ) : ∀ (nodes : List SeedNode) (i : ℕ),
    page + nodesOff + (i + nodes.length) * nodeSz < 2 ^ 64 →
      (∀ w ∈ nodeWrites rx page i nodes,
        mem.Holds (BitVec.ofNat 64 page + BitVec.ofNat 64 w.off) w.bytes.2) →
        mem.ListAt (if nodes = [] then 0 else nodeAddr page i)
            ((List.range' i nodes.length).map (nodeAddr page)) ∧
          ((List.range' i nodes.length).map (nodeAddr page)).map (serviceAt mem) =
            nodes.map (SeedNode.service rx)
  | [], _, _, _ => ⟨rfl, rfl⟩
  | node :: rest, i, hroom, hholds => by
      simp only [nodeWrites, List.forall_mem_cons] at hholds
      obtain ⟨hnext, hkey1, hkey2, hvalue, hrest⟩ := hholds
      have haddr : nodeAddr page i =
          BitVec.ofNat 64 page + BitVec.ofNat 64 (nodesOff + i * nodeSz) := by
        rw [nodeAddr, Nat.add_assoc, BitVec.ofNat_add]
      have hfield (k : ℕ) : nodeAddr page i + BitVec.ofNat 64 k =
          BitVec.ofNat 64 page + BitVec.ofNat 64 (nodesOff + i * nodeSz + k) := by
        rw [haddr, BitVec.add_assoc, ← BitVec.ofNat_add]
      rw [List.length_cons] at hroom
      simp only [nodesOff, nodeSz] at hroom
      obtain ⟨hlist, hservices⟩ := nodes_listAt rx page rest (i + 1) (by
        simp only [nodesOff, nodeSz]
        omega) hrest
      have hnextAddr : BitVec.ofNat 64 (mem.load (nodeAddr page i) 8) =
          if rest = [] then 0 else nodeAddr page (i + 1) := by
        rw [haddr, load_of_seed hnext]
        split_ifs with hnil
        · rfl
        · have hlen : rest.length ≠ 0 := fun h => hnil (List.length_eq_zero_iff.mp h)
          rw [nodeAddr]
          congr 1
          simp only [nodesOff, nodeSz]
          omega
      have hservice : serviceAt mem (nodeAddr page i) = node.service rx := by
        have hload1 := load_of_seed hkey1
        have hload2 := load_of_seed hkey2
        have hload3 := load_of_seed hvalue
        rw [← hfield] at hload1 hload2 hload3
        rw [serviceAt, SeedNode.service, Service.mk.injEq]
        refine ⟨hload1.trans ?_, hload2.trans ?_, hload3.trans ?_⟩
        · show ((node.key1 : ℤ) % 256 ^ 4).toNat = node.key1 % 2 ^ 32
          omega
        · show ((node.key2 : ℤ) % 256 ^ 4).toNat = node.key2 % 2 ^ 32
          omega
        · cases node.valueVm with
          | none => rfl
          | some vm => rfl
      rw [if_neg (List.cons_ne_nil _ _), List.length_cons, List.range'_succ, List.map_cons,
        List.map_cons, List.map_cons, hservice, hservices]
      refine ⟨⟨rfl, fun hzero => ?_, hnextAddr ▸ hlist⟩, rfl⟩
      have hnat := congrArg BitVec.toNat hzero
      rw [nodeAddr, BitVec.toNat_ofNat] at hnat
      simp only [nodesOff, nodeSz, BitVec.ofNat_eq_ofNat, BitVec.toNat_ofNat] at hnat
      omega

/-! ## The seeded registry -/

/-- Wherever the writes are in memory, a lookup finds the nodes' services in the order of the list. -/
theorem registry_of_holds {mem : Memory} {rx page : ℕ} {nodes : List SeedNode}
    {ws : List SeedWrite} (hbuild : seedBuild rx page nodes = some ws) (hne : nodes ≠ [])
    (hroom : page + nodesOff + nodes.length * nodeSz < 2 ^ 64)
    (hholds : ∀ w ∈ ws, mem.Holds (BitVec.ofNat 64 page + BitVec.ofNat 64 w.off) w.bytes.2)
    {fuel : ℕ} (hfuel : nodes.length < fuel) :
    registry mem fuel (BitVec.ofNat 64 (page + ctxOff)) = nodes.map (SeedNode.service rx) := by
  obtain rfl := seedBuild_ok hbuild
  rw [List.forall_mem_cons, List.forall_mem_cons] at hholds
  obtain ⟨hctx, hregobj, hnodes⟩ := hholds
  simp only [nodesOff, nodeSz] at hroom
  have hctxAddr : BitVec.ofNat 64 (page + ctxOff) + 0x10 =
      BitVec.ofNat 64 page + BitVec.ofNat 64 (ctxOff + 0x10) := by
    rw [BitVec.ofNat_add, BitVec.add_assoc]
    rfl
  have hctxLoad : mem.load (BitVec.ofNat 64 page + BitVec.ofNat 64 (ctxOff + 0x10)) 8 =
      ((page + regobjOff : ℤ) % 256 ^ 8).toNat := (load_of_seed hctx :)
  have hregobjLoad : mem.load (BitVec.ofNat 64 page + BitVec.ofNat 64 regobjOff) 8 =
      ((page + nodesOff : ℤ) % 256 ^ 8).toNat := (load_of_seed hregobj :)
  have hregobjAddr : BitVec.ofNat 64 (((page + regobjOff : ℤ) % 256 ^ 8).toNat) =
      BitVec.ofNat 64 page + BitVec.ofNat 64 regobjOff := by
    rw [← BitVec.ofNat_add]
    refine congrArg (BitVec.ofNat 64) ?_
    simp only [regobjOff]
    omega
  have hhead : BitVec.ofNat 64 (((page + nodesOff : ℤ) % 256 ^ 8).toNat) = nodeAddr page 0 := by
    rw [nodeAddr]
    refine congrArg (BitVec.ofNat 64) ?_
    simp only [nodesOff, nodeSz]
    omega
  obtain ⟨hlist, hservices⟩ := nodes_listAt rx page nodes 0 (by
    simp only [nodesOff, nodeSz]
    omega) hnodes
  rw [if_neg hne] at hlist
  have hlen : ((List.range' 0 nodes.length).map (nodeAddr page)).length < fuel := by
    rwa [List.length_map, List.length_range']
  rw [registry, hctxAddr, hctxLoad, hregobjAddr, hregobjLoad, hhead,
    Memory.walkList_of_listAt hlist hlen, hservices]

/-- A lookup from the context finds the nodes' services and nothing else, whatever the memory held
before, and the writes touch only the two pointers and the nodes. -/
theorem perThreadSeed_registry {rx page : ℕ} {nodes : List SeedNode} {ws : List SeedWrite}
    (hbuild : seedBuild rx page nodes = some ws) (hne : nodes ≠ [])
    (hroom : page + nodesOff + nodes.length * nodeSz < 2 ^ 64) (mem : Memory) {fuel : ℕ}
    (hfuel : nodes.length < fuel) :
    registry (seedMemory mem page ws) fuel (BitVec.ofNat 64 (page + ctxOff)) =
        nodes.map (SeedNode.service rx) ∧
      ∀ b, ¬Memory.Covers (BitVec.ofNat 64 (page + ctxOff + 0x10)) 8 b →
        ¬Memory.Covers (BitVec.ofNat 64 (page + regobjOff)) 8 b →
        ¬Memory.Covers (BitVec.ofNat 64 (page + nodesOff)) (nodes.length * nodeSz) b →
          seedMemory mem page ws b = mem b := by
  refine ⟨registry_of_holds hbuild hne hroom (seed_holds hbuild hroom mem) hfuel, ?_⟩
  intro b hnotCtx hnotRegobj hnotNodes
  refine Memory.writesAt_of_not_covers mem (List.forall_mem_map.mpr fun w hw => ?_)
  rw [SeedWrite.bytes_length, SeedWrite.bytes]
  rw [seedBuild_ok hbuild, List.mem_cons, List.mem_cons] at hw
  rcases hw with rfl | rfl | hw
  · rw [Nat.add_assoc, BitVec.ofNat_add] at hnotCtx
    simpa only using hnotCtx
  · rw [BitVec.ofNat_add] at hnotRegobj
    simpa only using hnotRegobj
  · -- a node's writes stay among the nodes
    have hin := (nodeWrites_ordered rx page nodes 0).2 w hw
    simp only [nodesOff, nodeSz] at hin hnotNodes hroom
    rw [BitVec.ofNat_add, Memory.covers_offset (by omega)] at hnotNodes
    rw [Memory.covers_offset (by omega)]
    omega

theorem perThreadSeed_registry_example : ∃ ws,
    seedBuild seedRxPhys 0x10006ff4000 (seedNodes ++ [⟨2, 4, none⟩]) = some ws ∧
      registry (seedMemory (fun _ => 0) 0x10006ff4000 ws) 3
          (BitVec.ofNat 64 (0x10006ff4000 + ctxOff)) =
        [⟨2, 5, 0x10006f82ce8⟩, ⟨2, 4, 0⟩] := by
  have hbuild : seedBuild seedRxPhys 0x10006ff4000 (seedNodes ++ [⟨2, 4, none⟩]) = some _ := rfl
  exact ⟨_, hbuild, (perThreadSeed_registry hbuild (by decide) (by decide) _ (by decide)).1⟩

/-! ## The loader's own writes -/

/-- What `arm_load_xnu_sptm` writes for the context at `CL4-dummypage`. -/
def cl4ContextWrites (cl4RxPhys cl4Dummy : ℕ) : List SeedWrite :=
  let ctx : ℕ := 0x200
  let regobj : ℕ := 0x400
  let node : ℕ := 0x420
  [⟨ctx + 0x08, 8, cl4Dummy + 0x600⟩, ⟨ctx + 0x10, 8, cl4Dummy + regobj⟩,
    ⟨regobj, 8, cl4Dummy + node⟩, ⟨node + 0x00, 8, 0⟩, ⟨node + 0x08, 4, 2⟩, ⟨node + 0x10, 4, 5⟩,
    ⟨node + 0x18, 8, cl4RxPhys + 0x6fece8⟩]

/-- The loader follows the generator, after the cell of its own. -/
theorem cl4ContextWrites_eq (cl4RxPhys cl4Dummy : ℕ) :
    ∃ ws, seedBuild cl4RxPhys cl4Dummy seedNodes = some ws ∧
      cl4ContextWrites cl4RxPhys cl4Dummy = ⟨ctxOff + 0x08, 8, cl4Dummy + 0x600⟩ :: ws := by
  refine ⟨_, rfl, ?_⟩
  have hvalue : (cl4RxPhys + 0x6fece8 : ℤ) = seedPhys cl4RxPhys 0xc06fece8 := by
    rw [seedPhys, seedBase]
    omega
  rw [cl4ContextWrites, hvalue]
  rfl

end SecureWorld.Loader
