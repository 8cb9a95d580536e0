import NorthOS.LittleEndian
import NorthOS.PageTables

/-!
The search for the configuration table of a multiprocessor, and the loop of mpinit over its
entries. Each case of the switch moves p over one entry, except the default: its break leaves the
switch and not the loop, so the loop looks at the same entry for ever.
-/
namespace NorthOS.Multiprocessor

open LittleEndian
open Vm (KERNBASE wrap)

def NCPU : ℕ := 8

def MPPROC : UInt8 := 0x00
def MPBUS : UInt8 := 0x01
def MPIOAPIC : UInt8 := 0x02
def MPIOINTR : UInt8 := 0x03
def MPLINTR : UInt8 := 0x04

/-- The sizes of struct mp, mpconf, mpproc and mpioapic. -/
def sizeofMp : ℕ := 16
def sizeofMpconf : ℕ := 44
def sizeofMpproc : ℕ := 20
def sizeofMpioapic : ℕ := 8

def P2V (a : ℕ) : ℕ := wrap (a + KERNBASE)

variable (mem : Bytes)

def sum (addr len : ℕ) : UInt8 := (List.range len).foldl (fun sum i => sum + mem (addr + i)) 0

/-- `memcmp(p, s, n) == 0` -/
def memcmp (p : ℕ) (s : List Char) : Bool :=
  (List.range s.length).all fun i => mem (p + i) = (s.getD i ' ').toUInt8

/-- Look for an MP structure in the len bytes at addr. -/
def mpsearch1 (a len : ℕ) : Option ℕ :=
  ((List.range ((len + sizeofMp - 1) / sizeofMp)).map fun i => P2V a + sizeofMp * i).find? fun p =>
    memcmp mem p ['_', 'M', 'P', '_'] && sum mem p sizeofMp = 0

def mpsearch : Option ℕ :=
  let bda := P2V 0x400
  let p := get mem (bda + 0x0E) 2 * 2 ^ 4
  let mp :=
    if p ≠ 0 then mpsearch1 mem p 1024
    else mpsearch1 mem (wrap (get mem (bda + 0x13) 2 * 1024 + 2 ^ 32 - 1024)) 1024
  mp.or (mpsearch1 mem 0xF0000 0x10000)

/-- The fields of struct mp that are read. -/
def physaddr (mp : ℕ) : ℕ := get mem (mp + 4) 4
def imcrp (mp : ℕ) : UInt8 := mem (mp + 12)

/-- The fields of struct mpconf that are read. -/
def length (conf : ℕ) : ℕ := get mem (conf + 4) 2
def version (conf : ℕ) : UInt8 := mem (conf + 6)
def lapicaddr (conf : ℕ) : ℕ := get mem (conf + 36) 4

/-- Returns mp and conf, if there is a table with the right signature, version and sum. -/
def mpconfig : Option (ℕ × ℕ) :=
  match mpsearch mem with
  | none => none
  | some mp =>
    if physaddr mem mp = 0 then none
    else
      let conf := P2V (physaddr mem mp)
      if ¬ memcmp mem conf ['P', 'C', 'M', 'P'] then none
      else if version mem conf ≠ 1 ∧ version mem conf ≠ 4 then none
      else if sum mem conf (length mem conf) ≠ 0 then none
      else some (mp, conf)

/-- What mpinit sets: the local APIC, the apicid of each processor, the I/O APIC. -/
structure Machine where
  lapic : ℕ
  cpus : List UInt8
  ioapicid : UInt8
  ismp : Bool
  deriving DecidableEq, Repr

/-- The body of the loop: p and the machine after it. -/
def switch (p : ℕ) (m : Machine) : ℕ × Machine :=
  if mem p = MPPROC then
    (p + sizeofMpproc, if m.cpus.length < NCPU then { m with cpus := m.cpus ++ [mem (p + 1)] } else m)
  else if mem p = MPIOAPIC then (p + sizeofMpioapic, { m with ioapicid := mem (p + 1) })
  else if mem p = MPBUS ∨ mem p = MPIOINTR ∨ mem p = MPLINTR then (p + 8, m)
  else (p, { m with ismp := false })

/-- `for (p = ...; p < e;)`, at most fuel rounds of it. -/
def loop (e : ℕ) : ℕ → ℕ → Machine → Option Machine
  | 0, p, m => if p < e then none else some m
  | fuel + 1, p, m => if p < e then loop e fuel (switch mem p m).1 (switch mem p m).2 else some m

inductive Outcome
  | panic (message : String)
  /-- The machine, and whether the mask of the interrupt mode was written. -/
  | done (m : Machine) (imcr : Bool)
  deriving DecidableEq, Repr

/-- `mpinit`; there is no outcome while the loop is still running after fuel rounds. -/
def mpinit (fuel : ℕ) : Option Outcome :=
  match mpconfig mem with
  | none => some (.panic "Expect to run on an SMP")
  | some (mp, conf) =>
    (loop mem (conf + length mem conf) fuel (conf + sizeofMpconf)
        ⟨lapicaddr mem conf, [], 0, true⟩).map fun m =>
      if ¬ m.ismp then .panic "Didn't find a suitable machine"
      else .done m (imcrp mem mp ≠ 0)

/-- The size of an entry of a known type. -/
def entrySize (type : UInt8) : ℕ := if type = MPPROC then sizeofMpproc else 8

/-- The addresses below e at which entries begin, if they are laid from p on one after another;
behind an entry of unknown type there is none. -/
inductive Entry (p e : ℕ) : ℕ → Prop
  | first (h : p < e) : Entry p e p
  | next {q : ℕ} (h : Entry p e q) (hknown : mem q ≤ MPLINTR) (hlt : q + entrySize (mem q) < e) :
      Entry p e (q + entrySize (mem q))

/-- Every entry of the table has one of the five types. -/
def KnownTypes (conf : ℕ) : Prop :=
  ∀ q, Entry mem (conf + sizeofMpconf) (conf + length mem conf) q → mem q ≤ MPLINTR

variable {mem} {p q e fuel : ℕ} {m : Machine}

section Switch

theorem known_types {t : UInt8} (h : t ≤ MPLINTR) :
    t = MPPROC ∨ t = MPIOAPIC ∨ t = MPBUS ∨ t = MPIOINTR ∨ t = MPLINTR := by
  have hle : t.toNat ≤ 4 := h
  have hcases : t.toNat = 0 ∨ t.toNat = 2 ∨ t.toNat = 1 ∨ t.toNat = 3 ∨ t.toNat = 4 := by omega
  simp only [← UInt8.toNat_inj]
  exact hcases

theorem switch_of_known (h : mem p ≤ MPLINTR) : (switch mem p m).1 = p + entrySize (mem p) := by
  have htype := known_types h
  unfold switch entrySize
  split
  · rfl
  · split
    · rfl
    · rw [if_pos (by tauto)]

/-- The default leaves p where it is. -/
theorem switch_of_unknown (h : ¬ mem p ≤ MPLINTR) : (switch mem p m).1 = p := by
  have htype : ∀ t, t ≤ MPLINTR → mem p ≠ t := fun t ht heq => h (heq ▸ ht)
  unfold switch
  rw [if_neg (htype _ (by decide)), if_neg (htype _ (by decide)), if_neg]
  rintro (heq | heq | heq)
  · exact htype _ (by decide) heq
  · exact htype _ (by decide) heq
  · exact htype _ (by decide) heq

end Switch

theorem entrySize_pos (t : UInt8) : 0 < entrySize t := by
  unfold entrySize
  split <;> decide

section Loop

theorem loop_of_le (h : e ≤ p) : loop mem e fuel p m = some m := by
  cases fuel <;> rw [loop, if_neg (by omega)]

/-- On a table of known types the loop ends. -/
theorem loop_ends (h : ∀ q, Entry mem p e q → mem q ≤ MPLINTR) :
    ∃ fuel, ∀ m, ∃ m', loop mem e fuel p m = some m' := by
  induction hk : e - p using Nat.strong_induction_on generalizing p with
  | _ k ih =>
    by_cases hlt : p < e
    · have hknown := h p (.first hlt)
      have hpos := entrySize_pos (mem p)
      have hrest : ∀ q, Entry mem (p + entrySize (mem p)) e q → mem q ≤ MPLINTR := by
        intro q hq
        apply h q
        induction hq with
        | first hlt' => exact .next (.first hlt) hknown hlt'
        | next _ hq hlt' ihq => exact .next ihq hq hlt'
      obtain ⟨fuel, hfuel⟩ := ih _ (by omega) hrest rfl
      refine ⟨fuel + 1, fun m => ?_⟩
      obtain ⟨m', hm'⟩ := hfuel (switch mem p m).2
      refine ⟨m', ?_⟩
      rw [loop, if_pos hlt, switch_of_known hknown, hm']
    · exact ⟨0, fun m => ⟨m, loop_of_le (by omega)⟩⟩

/-- At an entry of unknown type it does not. -/
theorem loop_stays (hlt : p < e) (h : ¬ mem p ≤ MPLINTR) : loop mem e fuel p m = none := by
  induction fuel generalizing m with
  | zero => exact if_pos hlt
  | succ fuel ih => rw [loop, if_pos hlt, switch_of_unknown h, ih]

/-- The loop comes to every entry, unless it has run out of fuel before. -/
theorem loop_reaches {m' : Machine} (h : Entry mem p e q) (hloop : loop mem e fuel p m = some m') :
    ∃ fuel m'', loop mem e fuel q m'' = some m' := by
  induction h with
  | first => exact ⟨fuel, m, hloop⟩
  | next hentry hknown hlt ih =>
    rename_i q
    have hpos := entrySize_pos (mem q)
    obtain ⟨fuel, m'', hq⟩ := ih
    cases fuel with
    | zero =>
      rw [loop, if_pos (by omega)] at hq
      exact absurd hq (by simp)
    | succ fuel =>
      rw [loop, if_pos (by omega), switch_of_known hknown] at hq
      exact ⟨fuel, _, hq⟩

end Loop

/-- mpinit comes to an end if and only if every entry of a table that mpconfig accepts has one of
the five types. -/
theorem mpinit_ends_iff (mem : Bytes) :
    (∃ fuel r, mpinit mem fuel = some r) ↔
      ∀ mp conf, mpconfig mem = some (mp, conf) → KnownTypes mem conf := by
  constructor
  · rintro ⟨fuel, r, hrun⟩ mp conf hconfig q hq
    unfold mpinit at hrun
    rw [hconfig] at hrun
    obtain ⟨m', hloop, -⟩ := Option.map_eq_some_iff.mp hrun
    by_contra hunknown
    obtain ⟨fuel, m, hstays⟩ := loop_reaches hq hloop
    have hlt : q < conf + length mem conf := by
      cases hq with
      | first h => exact h
      | next _ _ h => exact h
    rw [loop_stays hlt hunknown] at hstays
    exact absurd hstays (by simp)
  · intro h
    unfold mpinit
    split
    next => exact ⟨0, _, rfl⟩
    next mp conf hconfig =>
      obtain ⟨fuel, hfuel⟩ := loop_ends (h mp conf hconfig)
      obtain ⟨m', hm'⟩ := hfuel ⟨lapicaddr mem conf, [], 0, true⟩
      exact ⟨fuel, _, by rw [hm']; rfl⟩

/-- A memory with an accepted table, whose only entry has type 5. -/
def strangeEntry : Bytes := fun a =>
  if a = KERNBASE + 0x40E then 1
  else [95, 77, 80, 95, 32, 0, 0, 0, 1, 4, 128, 0, 0, 0, 0, 0,
    80, 67, 77, 80, 45, 0, 4, 154, 0, 0, 0, 0, 0, 0, 0, 0, 0, 0, 0, 0, 0, 0, 0, 0, 0, 0, 0, 0,
    0, 0, 0, 0, 0, 0, 0, 0, 0, 0, 0, 0, 0, 0, 0, 0, 5].getD (a - (KERNBASE + 16)) 0

theorem mpinit_strangeEntry :
    ¬ ∀ mem : Bytes, (∃ mp conf, mpconfig mem = some (mp, conf)) →
      ∃ fuel r, mpinit mem fuel = some r := by
  intro h
  have hconfig : mpconfig strangeEntry = some (KERNBASE + 16, KERNBASE + 32) := by decide
  obtain ⟨fuel, r, hrun⟩ := h strangeEntry ⟨_, _, hconfig⟩
  unfold mpinit at hrun
  rw [hconfig] at hrun
  obtain ⟨m', hloop, -⟩ := Option.map_eq_some_iff.mp hrun
  have hstays : loop strangeEntry (KERNBASE + 32 + length strangeEntry (KERNBASE + 32)) fuel
      (KERNBASE + 32 + sizeofMpconf) ⟨lapicaddr strangeEntry (KERNBASE + 32), [], 0, true⟩ = none :=
    loop_stays (by decide) (by decide)
  rw [hstays] at hloop
  exact absurd hloop (by simp)

end NorthOS.Multiprocessor
