import SecureWorld.DeviceTree.Muting
import SecureWorld.Foundations.Effects

/-! # The edits of `fixup`

`fixup` edits the tree in place, statement after statement; a `try` block that fails keeps what it
wrote. The state of an effect is the node it works on. What goes to the standard error output is
left out.
-/
namespace SecureWorld.DeviceTree
open Foundations
set_option autoImplicit false

abbrev Fixup (ι α : Type) : Type := Effect FixupError (DtTree ι) α

/-- The environment variables, what the module reads from them at its start, and the NVRAM file. -/
structure FixupInput where
  environ : String → Option String
  keepNodes : List Text
  supportedDrivers : List Bytes
  nvram : Bytes

/-- `if os.environ.get(name)` -/
def FixupInput.isSet (env : FixupInput) (name : String) : Bool :=
  match env.environ name with
  | none => false
  | some v => v ≠ ""

def frequency : String := "u32:0x100000"
def ibootName : String := "qemu-sptm"

def amccBankStride : ℕ := 0x100
def amccLowerLimitReg : ℕ := 0x10
def amccUpperLimitReg : ℕ := 0x20

def text (s : String) : PropVal := .str s.toList

/-- `f"u32:{n}"` -/
def u32Decimal (n : ℕ) : PropVal := .str (u32Marker ++ Nat.toDigits 10 n)

/-- `struct.pack("<QQ", a, b)` -/
def packQQ (a b : ℕ) : PropVal := .bytes (leBytes 8 a ++ leBytes 8 b)

section Node
variable {ι α : Type}

/-! ## One node -/

/-- Search the children in order for the first with the name `key`, and let `f` replace it. -/
def onChild (key : Text) (f : DtTree ι → Except FixupError α × List (DtTree ι))
    (missing : Except FixupError α) : List (DtTree ι) → Except FixupError α × List (DtTree ι)
  | [] => (missing, [])
  | c :: cs =>
      match c.label.props.get? nameKey with
      | none => (.error (.missingKey nameKey), c :: cs)
      | some nm =>
          if nm = .str key then
            let (result, cs') := f c
            (result, cs' ++ cs)
          else
            let (result, cs') := onChild key f missing cs
            (result, c :: cs')

def editChildren (f : Props → List (DtTree ι) → Except FixupError α × List (DtTree ι)) :
    Fixup ι α :=
  .ofExec fun t =>
    let (result, cs) := f t.label.props t.children
    (result, .node t.label cs)

/-- The text of the error needs the node's own name. -/
def nameError (err : PropVal → FixupError) (props : Props) : FixupError :=
  match props.get? nameKey with
  | some nm => err nm
  | none => .missingKey nameKey

/-- `m` on `d[key]` -/
def inItem (key : String) (m : Fixup ι α) : Fixup ι α :=
  editChildren fun props cs =>
    onChild key.toList (fun c => let (result, c') := m.exec c; (result, [c']))
      (.error (nameError (.keyNotPresent key.toList) props)) cs

def inItems (path : List String) (m : Fixup ι α) : Fixup ι α := path.foldr inItem m

/-- `key in d` -/
def hasItem (key : String) : Fixup ι Bool :=
  editChildren fun _ cs => onChild key.toList (fun c => (.ok true, [c])) (.ok false) cs

def removeChild (childName : String) : Fixup ι PUnit :=
  editChildren fun props cs =>
    onChild childName.toList (fun _ => (.ok ⟨⟩, []))
      (.error (nameError (.childNotFound childName.toList) props)) cs

def appendChild (child : DtTree ι) : Fixup ι PUnit :=
  editChildren fun _ cs => (.ok ⟨⟩, cs ++ [child])

def editProps (f : Props → Except FixupError α × Props) : Fixup ι α :=
  .ofExec fun t =>
    let (result, props) := f t.label.props
    (result, .node { t.label with props } t.children)

/-- `d.props[key]` -/
def getProp (key : String) : Fixup ι PropVal :=
  editProps fun props =>
    match props.get? key.toList with
    | some v => (.ok v, props)
    | none => (.error (.missingKey key.toList), props)

/-- `key in d.props` -/
def hasProp (key : String) : Fixup ι Bool :=
  editProps fun props => (.ok (props.get? key.toList).isSome, props)

/-- `d.props[key] = v` -/
def setProp (key : String) (v : PropVal) : Fixup ι PUnit :=
  editProps fun props => (.ok ⟨⟩, props.set key.toList v)

/-- `d.props.pop(key, None)` -/
def popProp (key : String) : Fixup ι PUnit :=
  editProps fun props => (.ok ⟨⟩, props.del key.toList)

/-- `del d.props[key]` -/
def delProp (key : String) : Fixup ι PUnit := do
  let _ ← getProp key
  popProp key

def setProps (table : List (String × PropVal)) : Fixup ι PUnit :=
  table.forM fun entry => setProp entry.1 entry.2

def popProps (keys : List String) : Fixup ι PUnit := keys.forM popProp

/-- `try: m` with a handler that only prints. -/
def attempt (m : Fixup ι PUnit) : Fixup ι PUnit := tryCatch m fun _ => pure ⟨⟩

/-- `if c: m` -/
def runIf (c : Bool) (m : Fixup ι PUnit) : Fixup ι PUnit := if c = true then m else pure ⟨⟩

def liftExcept {β : Type} : Except FixupError β → Fixup ι β
  | .ok b => pure b
  | .error e => throw e

/-! ## The passes before the DARTs are numbered -/

variable (py : Foreign) (env : FixupInput)

/-- The value as a string, bytes decoded. -/
def asText : PropVal → Except FixupError Text
  | .str t => .ok t
  | .bytes b =>
      match decodeUtf8 b with
      | some t => .ok t
      | none => .error .unicode
  | _ => .error .attribute

def getPlatformName : Fixup ι Text := do
  let compat ← inItem "arm-io" (getProp "compatible")
  let compat ← liftExcept (asText compat)
  match compat.dropWhile (· ≠ ',') with
  | [] => throw .index
  | _ :: rest => pure (rest.takeWhile (· ≠ ','))

def getSocGen : Fixup ι ℤ := do
  let socGenName ← inItem "arm-io" (getProp "soc-generation")
  match socGenName with
  | .str [] => throw .index
  | .str (c :: cs) =>
      if c ≠ 'H' then pure 0
      else
        match pyIntDecimal cs with
        | some n => pure n
        | none => throw .badInt
  | _ => pure 0

def pyLen : PropVal → Fixup ι ℕ
  | .str t => pure t.length
  | .bytes b => pure b.length
  | v =>
      match py.len v with
      | .ok n => pure n
      | .error e => throw e

def fixupDram : Fixup ι PUnit := do
  let socGen ← getSocGen
  let dram := (env.environ "DRAM_SIZE").getD "0x200000000"
  let base := if socGen ≤ 14 then "u64:0x800000000" else "u64:0x10000000000"
  inItem "chosen" (setProp "dram-base" (text base))
  inItem "chosen" (setProp "dram-size" (.str (u64Marker ++ dram.toList)))

def fixupRandomSeed : Fixup ι PUnit := do
  let seed ← inItem "chosen" (getProp "random-seed")
  let len ← pyLen py seed
  inItem "chosen" (setProp "random-seed" (.bytes (List.replicate len 0x41)))

/-- `d['chosen'].props[key] = f"u32:{len(d['chosen'].props['nvram-proxy-data'])}"` -/
def setNvramSize (key : String) : Fixup ι PUnit := do
  let data ← inItem "chosen" (getProp "nvram-proxy-data")
  let len ← pyLen py data
  inItem "chosen" (setProp key (u32Decimal len))

def fixupChosen : Fixup ι PUnit := do
  let platformName ← getPlatformName
  setProp "platform-name" (.str platformName)
  fixupDram env
  inItem "chosen" (setProp "firmware-version" (text ibootName))
  inItem "chosen" (setProp "system-firmware-version" (text ibootName))
  inItems ["cpus", "cpu0"] (setProp "state" (text "running"))
  fixupRandomSeed py
  inItem "chosen" (setProp "kernel-ctrr-to-be-enabled" (text "u32:0"))
  let phandle ← inItems ["arm-io", "uart0"] (getProp "AAPL,phandle")
  inItem "defaults" (setProp "serial-device" phandle)
  inItems ["cpus", "cpu0"] (setProps
    [("memory-frequency", text frequency), ("peripheral-frequency", text frequency),
      ("fixed-frequency", text frequency), ("clock-frequency", text frequency),
      ("timebase-frequency", text frequency)])
  inItem "chosen" (setProps
    [("nvram-bank-count", text "u32:1"), ("nvram-current-bank", text "u32:1"),
      ("nvram-proxy-data", .bytes env.nvram)])
  setNvramSize py "nvram-total-size"
  setNvramSize py "nvram-bank-size"

/-- The size of the panic log; the loader fills in the base. -/
def panicLogSize : ℕ := 0x100000

def fixupPram : Fixup ι PUnit :=
  runIf ((env.environ "PRAM").getD "1" ≠ "0") (attempt (do
    inItem "pram" (setProp "reg" (packQQ 0 panicLogSize))
    inItem "chosen" (setProp "embedded-panic-log-size" (.bytes (leBytes 4 panicLogSize)))))

def fixupHmac : Fixup ι PUnit := do
  let present ← inItems ["arm-io", "sep", "iop-sep-nub"] (hasItem "InvalidateHmac")
  runIf present (inItems ["arm-io", "sep", "iop-sep-nub", "InvalidateHmac"] (setProps
    [("config", text "u32:1"), ("sio-hmac1-offset", text "u64:0"),
      ("sio-hmac1-disable-mask", text "u64:0xffffffffffffffff")]))

/-! ## Numbering the DARTs -/

def dartIdKey : Text := "dart-id".toList

def dartMark : Bytes := encodeUtf8 "dart,".toList

/-- `compat and b'dart,' in compat` -/
def isDart (n : DtObject ι) : Except FixupError Bool :=
  match n.props.get? compatibleKey with
  | none => .ok false
  | some compat =>
      let truth := match compatBytes compat with
        | some b => !b.isEmpty
        | none => py.truth compat
      if truth then inCompat py compat dartMark else .ok false

mutual

/-- The tree with ids from `k` on, and the next id. -/
def assignDartIds : DtTree ι → ℕ → Except FixupError (DtTree ι × ℕ)
  | .node n cs, k => do
      let dart ← isDart py n
      let (n, k) :=
        if dart then ({ n with props := n.props.set dartIdKey (u32Decimal k) }, k + 1) else (n, k)
      let (cs, k) ← assignDartIdsAll cs k
      return (.node n cs, k)

def assignDartIdsAll : List (DtTree ι) → ℕ → Except FixupError (List (DtTree ι) × ℕ)
  | [], k => return ([], k)
  | c :: cs, k => do
      let (c, k) ← assignDartIds c k
      let (cs, k) ← assignDartIdsAll cs k
      return (c :: cs, k)

end

/-- A pure pass over the whole tree. Its errors end the script, so what it wrote before one does not
matter. -/
def wholeTree (f : DtTree ι → Except FixupError (DtTree ι)) : Fixup ι PUnit :=
  .ofExec fun t =>
    match f t with
    | .ok t' => (.ok ⟨⟩, t')
    | .error e => (.error e, t)

def numberDarts : Fixup ι PUnit :=
  wholeTree fun t => (assignDartIds py t 0).map Prod.fst

/-! ## The passes after it -/

def dcpNub : List String := ["arm-io", "dcp", "iop-dcp-nub"]

def fixupDcpRegion : Fixup ι PUnit :=
  runIf (env.isSet "DCP_REGION") (attempt (inItems dcpNub (setProps
    [("region-base", text "u64:0x0"), ("region-size", text "u64:0x0")])))

def fixupDcpRoutes : Fixup ι PUnit :=
  runIf (env.isSet "DCP_NO_ROUTES") (attempt (inItems dcpNub (do
    popProp "routes"
    runIf (env.isSet "DCP_DROP_NOFWSVC") (popProp "no-firmware-service"))))

def disableExclave (key : String) : Fixup ι PUnit := do
  let present ← hasProp key
  runIf present (setProp key (text "u32:0"))

def fixupExclaves : Fixup ι PUnit :=
  runIf (env.isSet "NO_EXCLAVES") (attempt (inItem "product"
    (["exclaves-enabled", "has-exclaves"].forM disableExclave)))

def fixupDcpNormalize : Fixup ι PUnit :=
  runIf (env.isSet "DCP_NORMALIZE") (attempt (inItems dcpNub (do
    popProps ["coredump-enable", "coredump-rel-privacy-approved", "no-firmware-service", "routes",
      "user-power-managed", "watchdog-enable"]
    setProps
      [("power-managed", text "u32:1"), ("region-base", text "u64:0x0"),
        ("region-size", text "u64:0x0"), ("continuous-time", text "<NULL>"),
        ("crashlog-non-fatal", text "<NULL>"), ("no-hibernate-sleep", text "<NULL>"),
        ("shutdown-sleep", text "<NULL>")])))

def fixupDcpPowerMode : Fixup ι PUnit :=
  runIf (env.isSet "DCP_POWER_MODE") (attempt (inItems dcpNub (do
    popProps ["user-power-managed", "power-managed", "dont-power-on", "quiesced"]
    if env.environ "DCP_POWER_MODE" = some "auto" then setProp "power-managed" (text "u32:1")
    else if env.environ "DCP_POWER_MODE" = some "already-on" then
      setProp "dont-power-on" (text "<NULL>")
    else pure ⟨⟩)))

def rtcNode (id : ι) : DtTree ι :=
  .node ⟨id, [("name".toList, text "rtc"), ("__placeholder_val".toList, text "<NULL>")]⟩ []

/-- The node for a real-time clock that is not there. -/
def fixupRtc (rtcId : ι) : Fixup ι PUnit := do
  inItem "arm-io" (removeChild "dockchannel-uart")
  setProp "no-rtc" (text "<NULL>")
  appendChild (rtcNode rtcId)
  inItem "defaults" (setProp "vmm-present" (text "u32:1"))

def ctrrProps (i : ℕ) : List (String × PropVal) :=
  [("page-size-shift", text "u32:0"),
    ("lower-limit-reg-offset", u32Decimal (amccBankStride * i + amccLowerLimitReg)),
    ("upper-limit-reg-offset", u32Decimal (amccBankStride * i + amccUpperLimitReg)),
    ("upper-limit-reg-mask", text "u32:0xFFFFFFFF"), ("lower-limit-reg-mask", text "u32:0xFFFFFFFF"),
    ("lock-reg-offset", text "u32:0"), ("lock-reg-mask", text "u32:0"),
    ("lock-reg-value", text "u32:0"), ("enable-reg-offset", text "u32:0"),
    ("enable-reg-mask", text "u32:1"), ("enable-reg-value", text "u32:1"),
    ("write-disable-reg-offset", text "u32:0"), ("write-disable-reg-mask", text "u32:1"),
    ("write-disable-reg-value", text "u32:1")]

def ctrrNodes : List (ℕ × String) :=
  [(0, "amcc-ctrr-a"), (1, "amcc-ctrr-b"), (2, "amcc-ctrr-c"), (3, "amcc-ctrr-d")]

def fixupAmcc : Fixup ι PUnit :=
  inItems ["chosen", "lock-regs", "amcc"] (do
    setProps
      [("aperture-count", text "u32:1"), ("aperture-size", text "u32:0x4000"),
        ("plane-count", text "u32:1"), ("plane-stride", text "u32:0")]
    let apertureSize ← getProp "aperture-size"
    setProps
      [("plane-size", apertureSize), ("aperture-phys-addr", text "u64:0x220000000"),
        ("cache-status-reg-offset", text "u32:0"), ("cache-status-reg-mask", text "u32:0"),
        ("cache-status-reg-value", text "u32:0")]
    ctrrNodes.forM fun ctrr => inItem ctrr.2 (setProps (ctrrProps ctrr.1)))

def muteDrivers : Fixup ι PUnit :=
  wholeTree (delCompat py env.keepNodes env.supportedDrivers [])

def fixupAic : Fixup ι PUnit := do
  let present ← hasProp "compatible"
  if present = true then do
    let compat ← getProp "compatible"
    let supported ← liftExcept ([encodeUtf8 "aic,2".toList, encodeUtf8 "aic,3".toList].anyM
      (inCompat py compat))
    runIf supported (setProp "aic-iack-offset" (text "u64:0x1000"))
  else throw .aicNotCompatible

def memoryMapKeys : List String :=
  ["TXM-ro", "TXM-rx", "TXM-bx", "TXM-rw", "TXM-le", "TXM-entry", "TXM-virt", "TrustCache",
    "BootKC-rx", "BootKC-bx", "BootKC-ro", "BootKC-rs", "BootKC-rw", "BootKC-le", "BootKC-virt",
    "BootKC-entry", "DeviceTree", "SPTM-ro", "SPTM-rm", "SPTM-rx", "SPTM-rw", "SPTM-le",
    "SPTM-entry", "SPTM-virt", "BootArgs", "slide", "CL4-rx", "CL4-ro", "CL4-rw", "CL4-le",
    "CL4-dummypage", "CL4-entry", "CL4-virt", "CL4-dummypage", "RAMDisk"]

def fixupSptm : Fixup ι PUnit := do
  inItems ["chosen", "memory-map"] (do
    memoryMapKeys.forM fun key => setProp key (packQQ 0xffffffffffffffff 0xffffffffffffffff)
    setProp "slide" (packQQ 0 0))
  inItem "arm-io" (removeChild "sgx")

/-- `fixup` up to the numbering. -/
def fixupBefore : Fixup ι PUnit := do
  fixupChosen py env
  fixupPram env
  fixupHmac

/-- `fixup` from the numbering on. -/
def fixupAfter (rtcId : ι) : Fixup ι PUnit := do
  fixupDcpRegion env
  fixupDcpRoutes env
  fixupExclaves env
  fixupDcpNormalize env
  fixupDcpPowerMode env
  fixupRtc rtcId
  fixupAmcc
  muteDrivers py env
  inItems ["arm-io", "aic"] (fixupAic py)
  fixupSptm
  delProp "secure-root-prefix"

/-- `rtcId` is the identity of the node the function creates. -/
def fixup (rtcId : ι) : Fixup ι PUnit := do
  fixupBefore py env
  numberDarts py
  fixupAfter py env rtcId

end Node
end SecureWorld.DeviceTree
