import SecureWorld.Patcher.RtbuddyOrder

/-! # The guarded notification

The image that `patch_rtbuddy_secureproxy_v2.py` writes, run by a processor: the notification of
the secure proxy is made where there is a route and skipped where there is none. Nothing else of
the kernel's runs changes, as long as they never enter the filler that holds the trampoline.
-/
namespace SecureWorld.Patcher
open Foundations GuardedCall Relation
set_option autoImplicit false

/-- `PATCH_VA` -/
def patchVa : BitVec 64 := .ofNat 64 Place.patch.va

/-- `TRAMP_VA` -/
def trampVa : BitVec 64 := .ofNat 64 Place.tramp.va

def realFnVa : BitVec 64 := .ofNat 64 realFn

/-- Where in the file the word at an address comes from. -/
structure Loads (fo : BitVec 64 → Option ℕ) (rtb kern : ℕ × ℕ) : Prop where
  site : fo patchVa = some (placeOffset rtb kern .patch)
  tramp : ∀ k < 3, fo (trampVa + .ofNat 64 (4 * k)) = some (placeOffset rtb kern .tramp + 4 * k)
  apart : ∀ va va' o o', fo va = some o → fo va' = some o' → va ≠ va' → o + 4 ≤ o' ∨ o' + 4 ≤ o

/-- The code of an image. -/
def codeOf (fo : BitVec 64 → Option ℕ) (d : Bytes) : Code := fun va => (fo va).map (wordAt d)

theorem wordAt_of_slice {d bs : Bytes} {o k : ℕ} (h : slice d o (o + bs.length) = bs)
    (hk : k + 4 ≤ bs.length) : wordAt d (o + k) = wordAt bs k := by
  rw [← wordAt_slice (b := o + bs.length) (by rw [h]; exact hk), h]

theorem div_four_of_mask {v : UInt8} (h : v &&& 0xfc = 0x94) : v.toNat / 4 = 37 := by
  have hlt := v.toNat_lt
  have hmask : v.toNat &&& 252 = 148 := (UInt8.toNat_and v 0xfc).symm.trans (congrArg UInt8.toNat h)
  have hshift : v.toNat >>> 2 &&& (2 ^ 6 - 1) = 37 :=
    Nat.shiftRight_and_distrib.symm.trans (congrArg (· >>> 2) hmask)
  rw [Nat.and_two_pow_sub_one_eq_mod, Nat.shiftRight_eq_div_pow] at hshift
  omega

/-- The check of the top byte finds a BL. -/
theorem isBl_of_top {d : Bytes} {o : ℕ} {top : UInt8} (htop : (slice d o (o + 4))[3]? = some top)
    (hmask : top &&& 0xfc = 0x94) : isBl (wordAt d o) = true := by
  have hquarter := div_four_of_mask hmask
  have hfield : field d o 4 = leNat (slice d o (o + 4)) := by
    rw [field, slice, List.take_drop]
  have hlen : (slice d o (o + 4)).length = 4 := by
    have hlt := length_of_getElem? htop
    have hle : (slice d o (o + 4)).length ≤ 4 := by
      rw [slice_length]
      omega
    omega
  obtain ⟨b₀, b₁, b₂, b₃, hbytes⟩ := List.length_eq_four.mp hlen
  rw [hbytes] at htop hfield
  obtain rfl : b₃ = top := by simpa using htop
  have h₀ := b₀.toNat_lt
  have h₁ := b₁.toNat_lt
  have h₂ := b₂.toNat_lt
  have h₃ := b₃.toNat_lt
  refine decide_eq_true (BitVec.eq_of_toNat_eq ?_)
  rw [wordAt, hfield, BitVec.extractLsb'_toNat, BitVec.toNat_ofNat, Nat.shiftRight_eq_div_pow]
  simp only [leNat, BitVec.toNat_ofNat]
  omega

section Trampoline
variable {tools : Tools} (hA : tools.A64) {bound : ℕ} {d out : Bytes} {rtb kern : ℕ × ℕ}
  (h : RtbImage bound d [.secureproxyV2] rtb kern)
  (hmain : RtbScript.secureproxyV2.main tools d false = .ok (some out))
  {fo : BitVec 64 → Option ℕ} (hload : Loads fo rtb kern)
include hA h hmain hload

theorem secureproxyV2_guards :
    Guards (codeOf fo d) (codeOf fo out) patchVa trampVa realFnVa := by
  obtain ⟨ws, hplan, hwritten⟩ := h.main_ok hA List.mem_cons_self hmain
  obtain ⟨-, -, -, rfl⟩ := SecureproxyV2.plan_ok hplan
  have htramp := hwritten.there _ List.mem_cons_self
  have hsite := hwritten.there _ (List.mem_cons_of_mem _ List.mem_cons_self)
  have hbytes : trampolineBytes tools = leBytes 4 (cbzWord 0 trampVa (trampVa + 8)).toNat ++
      leBytes 4 (bWord (trampVa + 4) realFnVa).toNat ++ leBytes 4 retWord.toNat := by
    rw [trampolineBytes, hA.test, hA.jump, hA.back]
    rfl
  have hword (k : ℕ) (hk : k < 3) : codeOf fo out (trampVa + .ofNat 64 (4 * k)) =
      some (wordAt (trampolineBytes tools) (4 * k)) := by
    rw [codeOf, hload.tramp k hk, Option.map_some,
      wordAt_of_slice htramp (by rw [trampolineBytes_length hA]; omega)]
  rw [hbytes] at hword
  refine ⟨?_, ?_, hword 1 (by omega), hword 2 (by omega), fun va hva hout => ?_, by decide,
    by decide, by decide, by decide, by decide⟩
  · rw [codeOf, hload.site, Option.map_some]
    have hpatch : wordAt out (placeOffset rtb kern .patch + 0) =
        wordAt (leBytes 4 (blWord patchVa trampVa).toNat) 0 :=
      wordAt_of_slice (by rw [leBytes_length]; exact hsite.trans hA.call) (by rw [leBytes_length])
    rw [← Nat.add_zero (placeOffset rtb kern .patch), hpatch]
    decide
  · have hfirst := hword 0 (by omega)
    rwa [Nat.mul_zero, show trampVa + .ofNat 64 0 = trampVa from BitVec.add_zero _] at hfirst
  · rw [codeOf, codeOf]
    cases hfo : fo va with
    | none => rfl
    | some o =>
      have hsiteApart := hload.apart va patchVa o _ hfo hload.site hva
      have hne (k : ℕ) (hk : k < 3) : va ≠ trampVa + .ofNat 64 (4 * k) := by
        rintro rfl
        obtain rfl | rfl | rfl : k = 0 ∨ k = 1 ∨ k = 2 := by omega
        · exact hout (.inl (BitVec.add_zero _))
        · exact hout (.inr (.inl rfl))
        · exact hout (.inr (.inr rfl))
      have htrampApart (k : ℕ) (hk : k < 3) :=
        hload.apart va _ o _ hfo (hload.tramp k hk) (hne k hk)
      refine congrArg some (wordAt_congr fun k hk => hwritten.frame _ ?_)
      have h₀ := htrampApart 0 (by omega)
      have h₁ := htrampApart 1 (by omega)
      have h₂ := htrampApart 2 (by omega)
      simp only [List.forall_mem_cons, trampolineBytes_length hA]
      refine ⟨?_, ?_, by simp⟩
      · omega
      · omega

/-- The patched kernel reaches, outside the filler, what a kernel reaches that makes the call with a
route only; and where there always is a route, what the old kernel reaches. -/
theorem secureproxyV2_reaches {ω : Type} (other : BitVec 32 → Cpu ω → Cpu ω → Prop) {s t : Cpu ω}
    (ht : ¬InTrampoline trampVa t.pc) :
    ((∀ u, ReflTransGen (guardedStep other (codeOf fo d) patchVa realFnVa) s u →
        ¬InTrampoline trampVa u.pc) →
      (ReflTransGen (codeStep other (codeOf fo out)) s t ↔
        ReflTransGen (guardedStep other (codeOf fo d) patchVa realFnVa) s t)) ∧
    (target26 (wordAt d (placeOffset rtb kern .patch)) patchVa = realFnVa →
      (∀ u, ReflTransGen (codeStep other (codeOf fo d)) s u →
        ¬InTrampoline trampVa u.pc ∧ (u.pc = patchVa → u.x 0 ≠ 0)) →
      (ReflTransGen (codeStep other (codeOf fo out)) s t ↔
        ReflTransGen (codeStep other (codeOf fo d)) s t)) := by
  have hguards := secureproxyV2_guards hA h hmain hload
  refine ⟨fun hdead => hguards.reaches_iff hdead ht, fun hfn hlive => ?_⟩
  obtain ⟨ws, hplan, -⟩ := h.main_ok hA List.mem_cons_self hmain
  obtain ⟨-, ⟨top, htop, hmask⟩, -⟩ := SecureproxyV2.plan_ok hplan
  have hword : codeOf fo d patchVa = some (wordAt d (placeOffset rtb kern .patch)) := by
    rw [codeOf, hload.site, Option.map_some]
  exact hguards.reaches_iff_of_call hword (isBl_of_top htop hmask) hfn
    (fun u hu => (hlive u hu).2) (fun u hu => (hlive u hu).1) ht

end Trampoline

/-! ## An image with the call and the filler -/

/-- RTBuddy with the call, and a kernel of nothing but the filler. -/
def proxyImage : Bytes :=
  leBytes 4 0xFEEDFACF ++ List.replicate 8 0 ++ leBytes 4 12 ++ leBytes 4 2 ++
    List.replicate 12 0 ++
    (leBytes 4 0x80000035 ++ leBytes 4 64 ++ leBytes 8 0xFFFFFFF007004000 ++ leBytes 8 160 ++
      leBytes 4 32 ++ List.replicate 4 0 ++ rtbuddyName ++ List.replicate 8 0) ++
    (leBytes 4 0x80000035 ++ leBytes 4 64 ++ leBytes 8 0xFFFFFFF007008000 ++ leBytes 8 264 ++
      leBytes 4 32 ++ List.replicate 4 0 ++ kernelName ++ List.replicate 16 0) ++
    (leBytes 4 0xFEEDFACF ++ List.replicate 12 0 ++ leBytes 4 1 ++ List.replicate 12 0) ++
    (leBytes 4 0x19 ++ leBytes 4 72 ++ asciiBytes "__TEXT_EXEC" ++ List.replicate 5 0 ++
      leBytes 8 Place.ldr.va ++ leBytes 8 8 ++ leBytes 8 368 ++ leBytes 8 8 ++
      List.replicate 16 0) ++
    (leBytes 4 0xFEEDFACF ++ List.replicate 12 0 ++ leBytes 4 1 ++ List.replicate 12 0) ++
    (leBytes 4 0x19 ++ leBytes 4 72 ++ asciiBytes "__TEXT_EXEC" ++ List.replicate 5 0 ++
      leBytes 8 Place.tramp.va ++ leBytes 8 16 ++ leBytes 8 376 ++ leBytes 8 16 ++
      List.replicate 16 0) ++
    leBytes 4 0xF950D660 ++ leBytes 4 0x940044C1 ++ List.replicate 16 0

theorem proxyImage_image :
    RtbImage 368 proxyImage [.secureproxyV2] (Place.ldr.va, 368) (Place.tramp.va, 376) where
  commands := by decide +kernel
  ids := by decide +kernel
  rtbuddy := ⟨⟨160, ⟨Place.ldr.va, 8, 368, 8⟩, by decide +kernel, by decide +kernel,
    by decide +kernel, rfl⟩, by decide⟩
  kernel _ := ⟨⟨264, ⟨Place.tramp.va, 16, 376, 16⟩, by decide +kernel, by decide +kernel,
    by decide +kernel, rfl⟩, by decide⟩
  inText := by decide
  apart := by decide

def proxyLoad (va : BitVec 64) : Option ℕ :=
  if va = patchVa then some 372
  else if va = trampVa then some 376
  else if va = trampVa + 4 then some 380
  else if va = trampVa + 8 then some 384
  else none

theorem proxyLoad_loads : Loads proxyLoad (Place.ldr.va, 368) (Place.tramp.va, 376) where
  site := by decide
  tramp := by decide
  apart va va' o o' hva hva' hne := by
    unfold proxyLoad at hva hva'
    grind

/-- A processor at the call with this route. -/
def atCall (route : BitVec 64) : Cpu Unit := ⟨⟨fun _ => route, patchVa⟩, ()⟩

/-- Behind the call nothing is loaded. -/
theorem atCall_reached {r : Cpu Unit → Cpu Unit → Prop} {route target : BitVec 64}
    (hfirst : ∀ u, r (atCall route) u → u = (atCall route).link.jump target)
    (hstuck : ∀ u, ¬r ((atCall route).link.jump target) u) {u : Cpu Unit}
    (hu : ReflTransGen r (atCall route) u) :
    u = atCall route ∨ u = (atCall route).link.jump target := by
  induction hu with
  | refl => exact .inl rfl
  | tail _ hlast ih =>
    rcases ih with rfl | rfl
    · exact .inr (hfirst _ hlast)
    · exact absurd hlast (hstuck _)

theorem proxyImage_runs : ∃ out,
    RtbScript.secureproxyV2.main a64Tools proxyImage false = .ok (some out) := by
  have hok : (RtbScript.secureproxyV2.main a64Tools proxyImage false).toOption.join.isSome = true := by
    decide +kernel
  obtain ⟨out, hout⟩ := Option.isSome_iff_exists.mp hok
  cases hrun : RtbScript.secureproxyV2.main a64Tools proxyImage false with
  | error e =>
    rw [hrun] at hout
    cases hout
  | ok written =>
    rw [hrun] at hout
    exact ⟨out, congrArg _ hout⟩

theorem secureproxyV2_reaches_proxy : ∃ out,
    RtbScript.secureproxyV2.main a64Tools proxyImage false = .ok (some out) ∧
      ReflTransGen (codeStep (fun _ _ _ => False) (codeOf proxyLoad out)) (atCall 0)
        ((atCall 0).link.jump (patchVa + 4)) ∧
      ReflTransGen (codeStep (fun _ _ _ => False) (codeOf proxyLoad out)) (atCall 1)
        ((atCall 1).link.jump realFnVa) := by
  obtain ⟨out, hmain⟩ := proxyImage_runs
  have hbl : codeOf proxyLoad proxyImage patchVa = some 0x940044C1 := by decide +kernel
  have htarget : target26 (wordAt proxyImage 372) patchVa = realFnVa := by decide +kernel
  have hcall (s u : Cpu Unit) (hs : s.pc = patchVa) :
      codeStep (fun _ _ _ => False) (codeOf proxyLoad proxyImage) s u ↔
        u = s.link.jump realFnVa := by
    rw [codeStep_of_word ((congrArg _ hs).trans hbl), exec_of_isBl (by decide), hs]
    rfl
  refine ⟨out, hmain, ?_, ?_⟩
  · have hguard := (secureproxyV2_reaches a64Tools_a64 proxyImage_image hmain proxyLoad_loads
      (fun _ _ _ => False) (s := atCall 0) (t := (atCall 0).link.jump (patchVa + 4))
      (by decide)).1
    refine (hguard fun u hu => ?_).mpr (.single rfl)
    have hstuck (u : Cpu Unit) : ¬guardedStep (fun _ _ _ => False) (codeOf proxyLoad proxyImage)
        patchVa realFnVa ((atCall 0).link.jump (patchVa + 4)) u := by
      rintro ⟨w, hw, -⟩
      cases hw
    rcases atCall_reached (fun u hu => hu) hstuck hu with rfl | rfl <;> decide
  · have hplain := (secureproxyV2_reaches a64Tools_a64 proxyImage_image hmain proxyLoad_loads
      (fun _ _ _ => False) (s := atCall 1) (t := (atCall 1).link.jump realFnVa)
      (by decide)).2 htarget
    refine (hplain fun u hu => ?_).mpr (.single ((hcall _ _ rfl).mpr rfl))
    have hstuck (u : Cpu Unit) : ¬codeStep (fun _ _ _ => False) (codeOf proxyLoad proxyImage)
        ((atCall 1).link.jump realFnVa) u := by
      rintro ⟨w, hw, -⟩
      cases hw
    rcases atCall_reached (fun u hu => (hcall _ _ rfl).mp hu) hstuck hu with rfl | rfl
    · exact ⟨by decide, fun _ => by decide⟩
    · exact ⟨by decide, fun hpc => absurd hpc (by decide)⟩

end SecureWorld.Patcher
