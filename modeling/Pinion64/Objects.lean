import Pinion64.ConfigRead
import Mathlib.Data.List.OfFn

/-! The objects that the boot loader hands over: init searches the list for the configuration,
load_kernel for the kernel image. -/
namespace Pinion64

/-- `struct unfold64_obje` -/
structure Obje where
  base : BitVec 64
  size : BitVec 32
  type : BitVec 32
  name : Fin 48 → Byte

/-- `struct unfold64_objl`. What lies behind the list in memory is numbered on. -/
structure Objl where
  count : BitVec 32
  entry : ℕ → Obje

namespace Obje

/-- The name of an object, up to its NUL. -/
def string (o : Obje) : Option (List Byte) := Config.stringFrom (List.ofFn o.name)

/-- strcmp of load.c and of init.c, which is that of config.c. -/
def strcmp (o : Obje) (b : List Byte) : Option Bool := Config.strcmpFrom (List.ofFn o.name) b

end Obje

namespace Objl

/-- The loop over the objects from `i` on, with `n` of them left: the index at which it stops. -/
def searchFrom (objl : Objl) (b : List Byte) : ℕ → ℕ → Option ℕ
  | 0, i => some i
  | n+1, i => do
    if ← (objl.entry i).strcmp b then searchFrom objl b n (i+1) else some i

def search (objl : Objl) (b : List Byte) : Option ℕ := objl.searchFrom b objl.count.toNat 0

end Objl

/-- What load_kernel does about the image: it stops behind an error report, or it goes on with the
entry of an index. -/
inductive ImageChoice
  | stop
  | entry (i : ℕ)
  deriving DecidableEq

/-- The search of load_kernel. -/
def kernelImage (k : Config) (objl : Objl) : Option ImageChoice := do
  match ← configRead k (bytes "loader") (bytes "image") with
  | none => some .stop
  | some kernelName => (objl.search (← Config.string k.text kernelName)).map .entry

/-- The search of init: the object that it parses as configuration, if any. -/
def configObject (objl : Objl) : Option (Option ℕ) :=
  (objl.search (bytes "/boot/pconf")).map fun i => if i < objl.count.toNat then some i else none

namespace Objl

/-- The object is in the list and has exactly this name. -/
def Named (objl : Objl) (b : List Byte) (i : ℕ) : Prop :=
  i < objl.count.toNat ∧ (objl.entry i).string = some b

/-- The name of the object agrees with the string as far as the shorter one goes. -/
def Alike (objl : Objl) (b : List Byte) (i : ℕ) : Prop :=
  i < objl.count.toNat ∧ ∃ a, (objl.entry i).string = some a ∧ Comparable a b

def IsFirst (P : ℕ → Prop) (i : ℕ) : Prop := P i ∧ ∀ j < i, ¬ P j

/-- The first object of the name is used, and without one the loader stops. -/
def Selects (objl : Objl) (b : List Byte) (r : ImageChoice) : Prop :=
  (∃ i, IsFirst (objl.Named b) i ∧ r = .entry i) ∨ (∀ i, ¬ objl.Named b i) ∧ r = .stop

/-- The first object of the name is taken, and without one none. -/
def Takes (objl : Objl) (b : List Byte) (r : Option ℕ) : Prop :=
  (∃ i, IsFirst (objl.Named b) i ∧ r = some i) ∨ (∀ i, ¬ objl.Named b i) ∧ r = none

variable {objl : Objl} {b : List Byte} {i : ℕ}

theorem Named.alike (h : objl.Named b i) : objl.Alike b i :=
  ⟨h.1, b, h.2, Or.inl List.prefix_rfl⟩

theorem IsFirst.unique {P : ℕ → Prop} {j : ℕ} (hi : IsFirst P i) (hj : IsFirst P j) : i = j := by
  rcases Nat.lt_trichotomy i j with h | h | h
  · exact absurd hi.1 (hj.2 i h)
  · exact h
  · exact absurd hj.1 (hi.2 j h)

theorem IsFirst.of_alike (h : IsFirst (objl.Alike b) i) (hn : objl.Named b i) :
    IsFirst (objl.Named b) i := ⟨hn, fun j hj hc => h.2 j hj hc.alike⟩

/-- The loop stops at the first object whose name agrees, or behind the list. -/
theorem searchFrom_spec (hs : ∀ i < objl.count.toNat, (objl.entry i).string.isSome)
    (hb : nul ∉ b) {n : ℕ} (hn : i + n = objl.count.toNat) (hno : ∀ j < i, ¬ objl.Alike b j) :
    ∃ r, objl.searchFrom b n i = some r ∧ (IsFirst (objl.Alike b) r ∨
      r = objl.count.toNat ∧ ∀ j, ¬ objl.Alike b j) := by
  induction n generalizing i with
  | zero =>
    refine ⟨i, rfl, Or.inr ⟨hn, fun j hj => hno j ?_ hj⟩⟩
    have hlt := hj.1
    omega
  | succ n ih =>
    obtain ⟨a, ha⟩ := Option.isSome_iff_exists.mp (hs i (by omega))
    have hcmp : (objl.entry i).strcmp b = some (decide (¬ Comparable a b)) := strcmpFrom_eq ha hb
    rw [searchFrom, hcmp]
    by_cases hc : Comparable a b
    · have hi : objl.Alike b i := ⟨by omega, a, ha, hc⟩
      exact ⟨i, by simp [hc], Or.inl ⟨hi, hno⟩⟩
    · have hno' : ∀ j < i + 1, ¬ objl.Alike b j := by
        intro j hj
        rcases Nat.lt_or_eq_of_le (Nat.le_of_lt_succ hj) with hlt | rfl
        · exact hno j hlt
        · rintro ⟨-, a', ha', hca⟩
          obtain rfl : a = a' := Option.some.inj (ha.symm.trans ha')
          exact hc hca
      obtain ⟨r, hr, hspec⟩ := ih (by omega) hno'
      refine ⟨r, ?_, hspec⟩
      rw [← hr]
      simp [hc]

theorem search_spec (hs : ∀ i < objl.count.toNat, (objl.entry i).string.isSome) (hb : nul ∉ b) :
    ∃ r, objl.search b = some r ∧ (IsFirst (objl.Alike b) r ∨
      r = objl.count.toNat ∧ ∀ j, ¬ objl.Alike b j) :=
  searchFrom_spec hs hb (Nat.zero_add _) fun _ hj => absurd hj (Nat.not_lt_zero _)

end Objl

open Objl

variable {k : Config} {objl : Objl} {v : ℕ} {name : List Byte}

theorem kernelImage_exact (hs : ∀ i < objl.count.toNat, (objl.entry i).string.isSome)
    (hk : configRead k (bytes "loader") (bytes "image") = some (some v))
    (hname : Config.string k.text v = some name) :
    ∃ r, kernelImage k objl = some r ∧ (objl.Selects name r ↔
      ∃ i, IsFirst (objl.Alike name) i ∧ objl.Named name i) := by
  have hnul : nul ∉ name := (stringFrom_eq_some hname).1
  obtain ⟨c, hc, hspec⟩ := search_spec hs hnul
  refine ⟨.entry c, ?_, ?_⟩
  · simp only [kernelImage, hk, hname, Option.bind_eq_bind, Option.bind_some, hc]
    rfl
  · constructor
    · rintro (⟨i, hi, hr⟩ | ⟨-, hr⟩)
      · obtain rfl : c = i := ImageChoice.entry.inj hr
        rcases hspec with hf | ⟨-, hno⟩
        · exact ⟨c, hf, hi.1⟩
        · exact absurd hi.1.alike (hno c)
      · cases hr
    · rintro ⟨i, hf, hn⟩
      rcases hspec with hf' | ⟨-, hno⟩
      · rw [hf'.unique hf]
        exact Or.inl ⟨i, hf.of_alike hn, rfl⟩
      · exact absurd hf.1 (hno i)

theorem configObject_exact (hs : ∀ i < objl.count.toNat, (objl.entry i).string.isSome) :
    ∃ r, configObject objl = some r ∧ (objl.Takes (bytes "/boot/pconf") r ↔
      ∀ i, IsFirst (objl.Alike (bytes "/boot/pconf")) i →
        objl.Named (bytes "/boot/pconf") i) := by
  obtain ⟨c, hc, hspec⟩ := search_spec (b := bytes "/boot/pconf") hs (by decide)
  refine ⟨_, congrArg (Option.map _) hc, ?_⟩
  rcases hspec with hf | ⟨rfl, hno⟩
  · simp only [if_pos hf.1.1]
    constructor
    · rintro (⟨i, hi, hr⟩ | ⟨-, hr⟩) j hj
      · obtain rfl : c = i := Option.some.inj hr
        rw [hj.unique hf]
        exact hi.1
      · cases hr
    · intro h
      exact Or.inl ⟨c, hf.of_alike (h c hf), rfl⟩
  · simp only [if_neg (lt_irrefl _)]
    exact iff_of_true (Or.inr ⟨fun i hi => hno i hi.alike, rfl⟩) fun i hi => absurd hi.1 (hno i)

/-- The kernel image is the first object of the configured name if and only if there is one and no
object before it agrees with the name as far as the shorter string goes. The configuration is the
first object named /boot/pconf if and only if this is the first object that agrees so far, or none
does. -/
theorem boot_objects_exact (k : Config) (objl : Objl) (v : ℕ) (name : List Byte)
    (hs : ∀ i < objl.count.toNat, (objl.entry i).string.isSome)
    (hk : configRead k (bytes "loader") (bytes "image") = some (some v))
    (hname : Config.string k.text v = some name) :
    (∃ r, kernelImage k objl = some r ∧ (objl.Selects name r ↔
      ∃ i, IsFirst (objl.Alike name) i ∧ objl.Named name i)) ∧
    ∃ r, configObject objl = some r ∧ (objl.Takes (bytes "/boot/pconf") r ↔
      ∀ i, IsFirst (objl.Alike (bytes "/boot/pconf")) i →
        objl.Named (bytes "/boot/pconf") i) :=
  ⟨kernelImage_exact hs hk hname, configObject_exact hs⟩

/-- An object of a name that is filled up with NUL. -/
def namedObje (s : String) : Obje := ⟨0xFFFFFFFFC1000000, 0x1000, 1, fun i => (bytes s).getD i nul⟩

def sampleObjl (names : List String) : Objl where
  count := BitVec.ofNat 32 names.length
  entry i := namedObje (names.getD i "")

/-- A configuration with the line `loader image kernel64`. -/
def imageConfig : Config where
  text := bytes "loader" ++ nul :: (bytes "image" ++ nul :: (bytes "kernel64" ++ nul :: [nul]))
  configIndex
    | 0 => ⟨some 0, some 7, some 13⟩
    | _ => ⟨none, none, none⟩

theorem Objl.not_alike {a : List Byte} {b : List Byte} {i : ℕ}
    (ha : (objl.entry i).string = some a) (hc : ¬ Comparable a b) : ¬ objl.Alike b i := by
  intro h
  obtain ⟨-, a', ha', hca⟩ := h
  rw [ha] at ha'
  exact hc (Option.some.inj ha' ▸ hca)

theorem Objl.named_first {i : ℕ} (hn : objl.Named name i)
    (hno : ∀ j < i, ∃ a, (objl.entry j).string = some a ∧ ¬ Comparable a name) :
    IsFirst (objl.Alike name) i := by
  refine ⟨hn.alike, fun j hj => ?_⟩
  obtain ⟨a, ha, hc⟩ := hno j hj
  exact not_alike ha hc

/-- The kernel and the configuration are the second and the third object. -/
theorem boot_objects_exact_third :
    (∃ r, kernelImage imageConfig (sampleObjl ["pinion64", "kernel64", "/boot/pconf"]) = some r ∧
      (sampleObjl ["pinion64", "kernel64", "/boot/pconf"]).Selects (bytes "kernel64") r) ∧
    ∃ r, configObject (sampleObjl ["pinion64", "kernel64", "/boot/pconf"]) = some r ∧
      (sampleObjl ["pinion64", "kernel64", "/boot/pconf"]).Takes (bytes "/boot/pconf") r := by
  obtain ⟨⟨r, hr, hsel⟩, r', hr', htake⟩ := boot_objects_exact imageConfig
    (sampleObjl ["pinion64", "kernel64", "/boot/pconf"]) 13 (bytes "kernel64") (by decide +kernel)
    (by decide +kernel) (by decide +kernel)
  have hkernel : (sampleObjl ["pinion64", "kernel64", "/boot/pconf"]).Named
      (bytes "kernel64") 1 := ⟨by decide +kernel, by decide +kernel⟩
  have hconf : (sampleObjl ["pinion64", "kernel64", "/boot/pconf"]).Named
      (bytes "/boot/pconf") 2 := ⟨by decide +kernel, by decide +kernel⟩
  have hfirst : IsFirst ((sampleObjl ["pinion64", "kernel64", "/boot/pconf"]).Alike
      (bytes "kernel64")) 1 := by
    refine named_first hkernel fun j hj => ⟨bytes "pinion64", ?_, by decide +kernel⟩
    obtain rfl : j = 0 := by omega
    decide +kernel
  have hthird : IsFirst ((sampleObjl ["pinion64", "kernel64", "/boot/pconf"]).Alike
      (bytes "/boot/pconf")) 2 := by
    refine named_first hconf fun j hj => ?_
    obtain rfl | rfl : j = 0 ∨ j = 1 := by omega
    · exact ⟨bytes "pinion64", by decide +kernel, by decide +kernel⟩
    · exact ⟨bytes "kernel64", by decide +kernel, by decide +kernel⟩
  refine ⟨⟨r, hr, hsel.mpr ⟨1, hfirst, hkernel⟩⟩, r', hr', htake.mpr fun i hi => ?_⟩
  rwa [hi.unique hthird]

/-- The object kernel stands before the object kernel64, and is taken for it. Without any object
of the name, the entry behind the list is used. -/
theorem boot_objects_prefix :
    kernelImage imageConfig (sampleObjl ["kernel", "kernel64"]) = some (.entry 0) ∧
    ¬ (sampleObjl ["kernel", "kernel64"]).Selects (bytes "kernel64") (.entry 0) ∧
    kernelImage imageConfig (sampleObjl ["/boot/pconf"]) = some (.entry 1) ∧
    ¬ (sampleObjl ["/boot/pconf"]).Selects (bytes "kernel64") (.entry 1) ∧
    configObject (sampleObjl ["/boot/pconf.old"]) = some (some 0) ∧
    ¬ (sampleObjl ["/boot/pconf.old"]).Takes (bytes "/boot/pconf") (some 0) := by
  refine ⟨by decide +kernel, ?_, by decide +kernel, ?_, by decide +kernel, ?_⟩
  · rintro (⟨i, hi, hr⟩ | ⟨-, hr⟩)
    · obtain rfl : 0 = i := ImageChoice.entry.inj hr
      exact absurd hi.1.2 (by decide +kernel)
    · cases hr
  · rintro (⟨i, hi, hr⟩ | ⟨-, hr⟩)
    · obtain rfl : 1 = i := ImageChoice.entry.inj hr
      exact absurd hi.1.1 (by decide +kernel)
    · cases hr
  · rintro (⟨i, hi, hr⟩ | ⟨-, hr⟩)
    · obtain rfl : 0 = i := Option.some.inj hr
      exact absurd hi.1.2 (by decide +kernel)
    · cases hr

end Pinion64
