import Mathlib.Algebra.Order.Ring.Nat
import SecureWorld.Foundations.TopCarving

/-! # The memory layout of a boot (`darwin_init`, `arm_load_xnu_sptm`)

The ramdisk ends the blob at the bottom of DRAM; the boot framebuffer, the coprocessor firmwares
and the panic log are taken off the top and hidden behind `memSize`. The rounding macros and page
sizes come from headers outside the repository and are parameters; so are the files
`check_and_open` maps, the blob loaded before the ramdisk and the first value of `memSize`.
-/
namespace SecureWorld.Boot
open Foundations
set_option autoImplicit false

/-- The macros of the machine's headers. -/
structure Macros where
  roundNextPage : BitVec 64 → BitVec 64
  roundUpPow2 : BitVec 64 → BitVec 64 → BitVec 64
  roundDownPow2 : BitVec 64 → BitVec 64 → BitVec 64
  darwinPageSize : BitVec 64
  darwinHugePageSize : BitVec 64
  oneMb : BitVec 64
  bootVideoDepthScaleShift : ℕ

def IsPow2 (p : BitVec 64) : Prop := ∃ k, p.toNat = 2 ^ k

/-- What the macros are named for. A next multiple beyond 64 bits is left open. -/
structure Macros.Rounding (m : Macros) : Prop where
  page : IsPow2 m.darwinPageSize
  hugePage : IsPow2 m.darwinHugePageSize
  down : ∀ x p, IsPow2 p → (m.roundDownPow2 x p).toNat = floorTo p.toNat x.toNat
  up : ∀ x p, IsPow2 p → ceilTo p.toNat x.toNat < 2 ^ 64 →
    (m.roundUpPow2 x p).toNat = ceilTo p.toNat x.toNat
  up_dvd : ∀ x p, IsPow2 p → p.toNat ∣ (m.roundUpPow2 x p).toNat
  nextPage : ∀ x, m.roundNextPage x = m.roundUpPow2 x m.darwinPageSize

/-- A mapped file; without `buf` nothing is mapped. -/
structure MmapFile where
  buf : Bool
  len : BitVec 64
deriving DecidableEq

structure XnuBootInfo where
  dramBase : BitVec 64
  ramdiskF : MmapFile
  fbWidth : BitVec 32
  fbHeight : BitVec 32
  fbBase : BitVec 64
  fbSize : BitVec 64
  fbVideo : Bool
  ansfwF : MmapFile
  ansfwRegion : BitVec 64
  dcpfwF : MmapFile
  dcpfwRegion : BitVec 64

/-! ## Sizes (`darwin_init`) -/

/-- The environment: the files `DARWIN_DCPFW` and `DARWIN_ANSFW` name, and `DARWIN_FB`. -/
structure BootEnv where
  dcpfw : Option MmapFile
  ansfw : Option MmapFile
  fb : Option String

def darwinFbWidth : BitVec 32 := 640

def darwinFbHeight : BitVec 32 := 1136

/-- Room beyond the image for the coprocessor's working set. -/
def firmwareRegion (m : Macros) (f : MmapFile) : BitVec 64 :=
  let want := m.roundNextPage f.len + 64 * m.oneMb
  m.roundUpPow2 want m.darwinHugePageSize

def XnuBootInfo.setDcpfw (m : Macros) (info : XnuBootInfo) : Option MmapFile → XnuBootInfo
  | none => info
  | some f => { info with dcpfwF := f, dcpfwRegion := firmwareRegion m f }

def XnuBootInfo.setAnsfw (m : Macros) (info : XnuBootInfo) : Option MmapFile → XnuBootInfo
  | none => info
  | some f => { info with ansfwF := f, ansfwRegion := firmwareRegion m f }

def XnuBootInfo.setFb (m : Macros) (info : XnuBootInfo) : Option String → XnuBootInfo
  | none => info
  | some mode => { info with
      fbWidth := darwinFbWidth
      fbHeight := darwinFbHeight
      fbSize := m.roundNextPage (darwinFbWidth.setWidth 64 * darwinFbHeight.setWidth 64 * 4)
      fbVideo := mode ≠ "carve" }

def darwinInit (m : Macros) (env : BootEnv) (dramBase : BitVec 64) (ramdisk : MmapFile) :
    XnuBootInfo :=
  let info : XnuBootInfo :=
    { dramBase := dramBase, ramdiskF := ramdisk, fbWidth := 0, fbHeight := 0, fbBase := 0,
      fbSize := 0, fbVideo := false, ansfwF := ⟨false, 0⟩, ansfwRegion := 0,
      dcpfwF := ⟨false, 0⟩, dcpfwRegion := 0 }
  ((info.setDcpfw m env.dcpfw).setAnsfw m env.ansfw).setFb m env.fb

/-! ## The loader -/

/-- The cells of the properties a device tree has, by node path and name. -/
abbrev Dtree := String → String → Option (List (BitVec 64))

def Dtree.setCell (dt : Dtree) (path name : String) (i : ℕ) (val : BitVec 64) : Dtree :=
  fun path' name' =>
    if path' = path ∧ name' = name then (dt path name).map (·.set i val) else dt path' name'

structure BootVideo where
  vBaseAddr : BitVec 64
  vDisplay : BitVec 64
  vRowBytes : BitVec 64
  vWidth : BitVec 64
  vHeight : BitVec 64
  vDepth : BitVec 64

structure BootArgs where
  memSize : BitVec 64
  topOfKernelData : BitVec 64
  video : BootVideo

/-- Addresses `[base, base + size)`. -/
structure Region where
  base : BitVec 64
  size : BitVec 64
deriving DecidableEq

/-- The loader's variables, with a record of the firmware images it wrote, of the regions it carved
and of whether a subtraction from `memSize` wrapped. -/
structure Loader where
  info : XnuBootInfo
  args : BootArgs
  blobHead : BitVec 64
  fbBasePhys : BitVec 64
  dtree : Dtree
  writes : List Region
  carved : List Region
  wrapped : Bool

/-- `args.memSize = ROUND_DOWN_POW2(args.memSize - size, DARWIN_PAGE_SIZE)` -/
def carve (m : Macros) (l : Loader) (size : BitVec 64) : Loader :=
  let memSize := m.roundDownPow2 (l.args.memSize - size) m.darwinPageSize
  { l with
    args.memSize := memSize
    carved := l.carved ++ [⟨l.info.dramBase + memSize, size⟩]
    wrapped := l.wrapped || decide (l.args.memSize < size) }

def pushRamdisk (m : Macros) (l : Loader) : Loader :=
  if l.info.ramdiskF.buf then
    { l with blobHead := m.roundNextPage (l.blobHead + l.info.ramdiskF.len) }
  else l

def parkFramebuffer (m : Macros) (l : Loader) : Loader :=
  if l.info.fbSize ≠ 0 then
    let l := carve m l l.info.fbSize
    let fbBasePhys := l.info.dramBase + l.args.memSize
    { l with fbBasePhys := fbBasePhys, info.fbBase := fbBasePhys }
  else l

def carveAnsfw (m : Macros) (l : Loader) : Loader :=
  if l.info.ansfwF.buf then
    let region := l.info.ansfwRegion
    let l := carve m l region
    let fwBase := l.info.dramBase + l.args.memSize
    let nub := "arm-io/ans/iop-ans-nub"
    { l with
      writes := l.writes ++ [⟨fwBase, l.info.ansfwF.len⟩]
      dtree := (l.dtree.setCell nub "region-base" 0 fwBase).setCell nub "region-size" 0 region }
  else l

/-- Unlike for ANS, the nub gets both properties or none. -/
def carveDcpfw (m : Macros) (l : Loader) : Loader :=
  if l.info.dcpfwF.buf then
    let region := l.info.dcpfwRegion
    let l := carve m l region
    let fwBase := l.info.dramBase + l.args.memSize
    let nub := "arm-io/dcp/iop-dcp-nub"
    { l with
      writes := l.writes ++ [⟨fwBase, l.info.dcpfwF.len⟩]
      dtree :=
        if (l.dtree nub "region-base").isSome ∧ (l.dtree nub "region-size").isSome then
          (l.dtree.setCell nub "region-base" 0 fwBase).setCell nub "region-size" 0 region
        else l.dtree }
  else l

def panicLogSize : BitVec 64 := 0x100000

def backPanicLog (m : Macros) (l : Loader) : Loader :=
  let l := carve m l panicLogSize
  let pramBase := l.info.dramBase + l.args.memSize
  { l with
    dtree := (l.dtree.setCell "pram" "reg" 0 pramBase).setCell "pram" "reg" 1 panicLogSize }

def publishFramebuffer (m : Macros) (l : Loader) : Loader :=
  if l.info.fbSize ≠ 0 ∧ l.info.fbVideo then
    let dtree := (l.dtree.setCell "vram" "reg" 0 l.fbBasePhys).setCell "vram" "reg" 1 l.info.fbSize
    { l with
      dtree :=
        if dtree "chosen" "display-scale" = some [0] then
          dtree.setCell "chosen" "display-scale" 0 1
        else dtree
      args.video :=
        { vBaseAddr := l.fbBasePhys
          vDisplay := 1
          vRowBytes := (l.info.fbWidth * 4).setWidth 64
          vWidth := l.info.fbWidth.setWidth 64
          vHeight := l.info.fbHeight.setWidth 64
          vDepth := 32 ||| (1 <<< m.bootVideoDepthScaleShift) } }
  else l

/-- `blobHead` is the end of what is loaded before the ramdisk, `memSize` the size the kernel would
get without carve-outs. -/
def Loader.start (info : XnuBootInfo) (blobHead memSize : BitVec 64) (dtree : Dtree) : Loader :=
  { info := info, args := ⟨memSize, 0, ⟨0, 0, 0, 0, 0, 0⟩⟩, blobHead := blobHead,
    fbBasePhys := 0, dtree := dtree, writes := [], carved := [], wrapped := false }

def setTopOfKernelData (l : Loader) : Loader := { l with args.topOfKernelData := l.blobHead }

/-- From the ramdisk on. -/
def armLoadXnuSptm (m : Macros) (info : XnuBootInfo) (blobHead memSize : BitVec 64)
    (dtree : Dtree) : Loader :=
  let l := pushRamdisk m (Loader.start info blobHead memSize dtree)
  let l := parkFramebuffer m l
  let l := carveDcpfw m (carveAnsfw m l)
  let l := backPanicLog m (setTopOfKernelData l)
  publishFramebuffer m l

/-! ## What each step leaves alone -/

section Frame
variable (m : Macros) (l : Loader)

theorem pushRamdisk_info : (pushRamdisk m l).info = l.info := by
  rw [pushRamdisk]
  split_ifs <;> rfl

/-- Only the framebuffer's own address is filled in. -/
theorem parkFramebuffer_info :
    (parkFramebuffer m l).info = { l.info with fbBase := (parkFramebuffer m l).info.fbBase } := by
  rw [parkFramebuffer]
  split_ifs <;> rfl

theorem carveAnsfw_info : (carveAnsfw m l).info = l.info := by
  rw [carveAnsfw]
  split_ifs <;> rfl

theorem carveDcpfw_info : (carveDcpfw m l).info = l.info := by
  rw [carveDcpfw]
  split_ifs <;> rfl

theorem publishFramebuffer_info : (publishFramebuffer m l).info = l.info := by
  rw [publishFramebuffer]
  split_ifs <;> rfl

end Frame

end SecureWorld.Boot
