import NorthOS.Calls

/-!
What exec reads of a program: the ELF header, the program headers one by one, and the
segments page by page, up to the first that is not as it should be. Reads that end in
front of the double-indirect blocks log nothing.
-/
namespace NorthOS.Fs

open LittleEndian Halting Comp

/-- What readi returns for a file. -/
def Node.read (x : Node) (off n : ℕ) : ℤ × Bytes :=
  if off > x.size ∨ (off + n) % 2 ^ 32 < off then (-1, fun _ => 0)
  else (((min n (x.size - off) : ℕ) : ℤ), fun k => x.byte (off + k))

/-- The reads of loaduvm from byte `k` of the segment on, and whether all are complete. -/
def Node.loads (x : Node) (offset sz : ℕ) : ℕ → ℕ → List (ℕ × ℕ) × Bool
  | 0, _ => ([], true)
  | fuel + 1, k =>
    if k < sz then
      if (x.read ((offset + k) % 2 ^ 32) (min (sz - k) PGSIZE)).1 = min (sz - k) PGSIZE then
        (((offset + k) % 2 ^ 32, min (sz - k) PGSIZE) :: (x.loads offset sz fuel (k + PGSIZE)).1,
          (x.loads offset sz fuel (k + PGSIZE)).2)
      else ([((offset + k) % 2 ^ 32, min (sz - k) PGSIZE)], false)
    else ([], true)

/-- The reads of exec from the program header at `off` on, and whether it accepts them all. -/
def Node.segments (x : Node) (vm : Vm) : ℕ → ℕ → ℕ → List (ℕ × ℕ) × Bool
  | 0, _, _ => ([], true)
  | phnum + 1, off, sz =>
    let ph := (x.read off 32).2
    let vaddr := get ph 8 4
    let filesz := get ph 16 4
    let memsz := get ph 20 4
    if (x.read off 32).1 ≠ 32 then ([(off, 32)], false)
    else if get ph 0 4 ≠ ELF_PROG_LOAD then
      ((off, 32) :: (x.segments vm phnum ((off + 32) % 2 ^ 32) sz).1,
        (x.segments vm phnum ((off + 32) % 2 ^ 32) sz).2)
    else if memsz < filesz ∨ (vaddr + memsz) % 2 ^ 32 < vaddr then ([(off, 32)], false)
    else if vm.allocuvm sz (vaddr + memsz) = 0 ∨ vaddr % PGSIZE ≠ 0 then ([(off, 32)], false)
    else if (x.loads (get ph 4 4) filesz (filesz / PGSIZE + 1) 0).2 then
      ((off, 32) :: ((x.loads (get ph 4 4) filesz (filesz / PGSIZE + 1) 0).1 ++
        (x.segments vm phnum ((off + 32) % 2 ^ 32) (vm.allocuvm sz (vaddr + memsz))).1),
        (x.segments vm phnum ((off + 32) % 2 ^ 32) (vm.allocuvm sz (vaddr + memsz))).2)
    else ((off, 32) :: (x.loads (get ph 4 4) filesz (filesz / PGSIZE + 1) 0).1, false)

/-- All reads of exec. -/
def Node.execReads (x : Node) (vm : Vm) : List (ℕ × ℕ) :=
  let elf := (x.read 0 52).2
  if (x.read 0 52).1 ≠ 52 ∨ get elf 0 4 ≠ ELF_MAGIC ∨ vm.setupkvm = false then [(0, 52)]
  else (0, 52) :: (x.segments vm (get elf 44 2) (get elf 28 4) 0).1

/-- No byte that is read lies in a double-indirect block. -/
def Node.NearRead (x : Node) (off n : ℕ) : Prop := x.size ≤ off ∨ min (off + n) x.size ≤ nearBytes

/-- exec reads nothing from the double-indirect blocks of the file; a device has none. -/
def Node.NearExec (x : Node) (vm : Vm) : Prop :=
  x.type = T_DEV ∨ ∀ q ∈ x.execReads vm, x.NearRead q.1 q.2

variable {near : Prop} {i n off m k sz : ℕ} {s t : State} {A : Files} {σ : Slots}
  {E L : Multiset ℕ} {cwd : ℕ} {path : Name} {vm : Vm} {x : Node}

section Reads

/-- Of a device nothing is known but that reading it changes nothing. -/
theorem Shows.readDevice (h : Shows near s A σ) (hat : At σ i n) (hdev : (A n).type = T_DEV) :
    Gives (Fs.readi i off m s) fun _ t => s = t := by
  obtain ⟨_, _, htype, _⟩ := h.fields hat
  unfold Fs.readi
  refine Ends.bind (Q := fun ip t => ip.type = T_DEV ∧ s = t) ⟨htype.trans hdev, rfl⟩ ?_
  rintro ip _ _ ⟨hip, rfl⟩
  rw [if_pos hip]
  refine Ends.bind (Q := fun _ t => s = t) rfl ?_
  rintro devsw _ _ rfl
  generalize (if short ip.major < 0 ∨ short ip.major ≥ NDEV then none else devsw ip.major) = entry
  cases entry with
  | none => exact rfl
  | some d => exact rfl

/-- readi of the cached file system and of the file. -/
theorem Shows.readNear (h : Shows near s A σ) (hat : At σ i n) (hdev : (A n).type ≠ T_DEV)
    (hoff : off < 2 ^ 32) (hm : m < 2 ^ 32) (hnear : (A n).NearRead off m) :
    Gives (Fs.readi i off m s) fun r t => s = t ∧ r.1 = ((A n).read off m).1 ∧
      ∀ k : ℕ, (k : ℤ) < r.1 → r.2 k = ((A n).read off m).2 k := by
  obtain ⟨_, _, htype, _, _, _, hsize⟩ := h.fields hat
  by_cases hbad : off > (A n).size ∨ (off + m) % 2 ^ 32 < off
  · unfold Fs.readi
    refine Ends.bind (Q := fun ip t => ip.type ≠ T_DEV ∧ ip.size = (A n).size ∧ s = t) ?_ ?_
    · exact ⟨by rwa [htype], hsize, rfl⟩
    · rintro ip _ _ ⟨hip, hsize, rfl⟩
      rw [if_neg hip, hsize, if_pos hbad]
      rw [Node.read, if_pos hbad]
      exact ⟨rfl, rfl, fun _ _ => rfl⟩
  · have hwrap : off + m < 2 ^ 32 := by omega
    obtain ⟨d, hread, hbytes⟩ := h.readi hat hdev (by omega) hwrap hnear
    refine gives_iff.mpr fun r t hrun => ?_
    rw [hread] at hrun
    obtain ⟨hr, rfl⟩ := Prod.mk.inj (Except.ok.inj hrun)
    rw [← hr, Node.read, if_neg hbad]
    exact ⟨rfl, rfl, fun k hk => hbytes k (by omega)⟩

theorem Shows.loadLoop (h : Shows near s A σ) (hat : At σ i n) (hdev : (A n).type ≠ T_DEV)
    {fuel offset : ℕ} (hnear : ∀ q ∈ ((A n).loads offset sz fuel k).1, (A n).NearRead q.1 q.2) :
    Gives (Fs.loadLoop i offset sz fuel k s) fun ok t => s = t ∧
      ok = ((A n).loads offset sz fuel k).2 := by
  induction fuel generalizing k with
  | zero => exact ⟨rfl, rfl⟩
  | succ fuel ih =>
    unfold Fs.loadLoop
    unfold Node.loads at hnear ⊢
    by_cases hk : k < sz
    · rw [if_pos hk] at hnear
      rw [if_pos hk, if_pos hk]
      have hpage : PGSIZE = 4096 := rfl
      have hmod : (offset + k) % 2 ^ 32 < 2 ^ 32 := Nat.mod_lt _ (Nat.two_pow_pos 32)
      have hlen : min (sz - k) PGSIZE < 2 ^ 32 := by omega
      generalize (offset + k) % 2 ^ 32 = at_ at *
      generalize min (sz - k) PGSIZE = len at *
      by_cases hfull : ((A n).read at_ len).1 = len
      · rw [if_pos hfull] at hnear
        rw [if_pos hfull]
        have hhead := hnear _ (List.mem_cons_self ..)
        refine Ends.bind (h.readNear hat hdev hmod hlen hhead) ?_
        rintro r _ _ ⟨rfl, hr, _⟩
        rw [hfull] at hr
        rw [if_pos hr]
        exact ih fun q hq => hnear q (List.mem_cons_of_mem _ hq)
      · rw [if_neg hfull] at hnear
        rw [if_neg hfull]
        have hhead := hnear _ (List.mem_cons_self ..)
        refine Ends.bind (h.readNear hat hdev hmod hlen hhead) ?_
        rintro r _ _ ⟨rfl, hr, _⟩
        rw [if_neg (by rw [hr]; exact hfull)]
        exact ⟨rfl, rfl⟩
    · rw [if_neg hk, if_neg hk]
      exact ⟨rfl, rfl⟩

theorem Shows.loadSegments (h : Shows near s A σ) (hat : At σ i n) (hdev : (A n).type ≠ T_DEV)
    {phnum : ℕ} (hoff : off < 2 ^ 32)
    (hnear : ∀ q ∈ ((A n).segments vm phnum off sz).1, (A n).NearRead q.1 q.2) :
    Gives (Fs.loadSegments vm i phnum off sz s) fun ok t =>
      s = t ∧ ok = ((A n).segments vm phnum off sz).2 := by
  induction phnum generalizing off sz with
  | zero => exact ⟨rfl, rfl⟩
  | succ phnum ih =>
    have hnext : (off + 32) % 2 ^ 32 < 2 ^ 32 := Nat.mod_lt _ (Nat.two_pow_pos 32)
    have hhead : (A n).NearRead off 32 := by
      refine hnear (off, 32) ?_
      unfold Node.segments
      dsimp only
      split
      · exact List.mem_cons_self ..
      · split
        · exact List.mem_cons_self ..
        · split
          · exact List.mem_cons_self ..
          · split
            · exact List.mem_cons_self ..
            · split
              · exact List.mem_cons_self ..
              · exact List.mem_cons_self ..
    unfold Fs.loadSegments
    unfold Node.segments at hnear ⊢
    dsimp only at hnear
    refine Ends.bind (h.readNear hat hdev hoff (by decide) hhead) ?_
    rintro r _ _ ⟨rfl, hr, hbytes⟩
    dsimp only
    by_cases hfull : ((A n).read off 32).1 ≠ 32
    · rw [if_pos hfull, if_pos (by rw [hr]; exact hfull)]
      exact ⟨rfl, rfl⟩
    · rw [if_neg hfull] at hnear
      rw [if_neg hfull, if_neg (by rw [hr]; exact hfull)]
      -- a complete header is that of the file
      have hget : ∀ o len, o + len ≤ 32 → get r.2 o len = get ((A n).read off 32).2 o len := by
        intro o len hlen
        refine get_congr fun l _ hl => hbytes l ?_
        rw [hr, Decidable.of_not_not hfull]
        omega
      rw [hget 0 4 (by omega), hget 8 4 (by omega), hget 16 4 (by omega), hget 20 4 (by omega),
        hget 4 4 (by omega)]
      generalize ((A n).read off 32).2 = ph at *
      by_cases hload : get ph 0 4 ≠ ELF_PROG_LOAD
      · rw [if_pos hload] at hnear
        rw [if_pos hload, if_pos hload]
        exact ih hnext fun q hq => hnear q (List.mem_cons_of_mem _ hq)
      · rw [if_neg hload] at hnear
        rw [if_neg hload, if_neg hload]
        by_cases hsmall : get ph 20 4 < get ph 16 4 ∨ (get ph 8 4 + get ph 20 4) % 2 ^ 32 <
          get ph 8 4
        · rw [if_pos hsmall, if_pos hsmall]
          exact ⟨rfl, rfl⟩
        · rw [if_neg hsmall] at hnear
          rw [if_neg hsmall, if_neg hsmall]
          by_cases halloc : vm.allocuvm sz (get ph 8 4 + get ph 20 4) = 0 ∨ get ph 8 4 % PGSIZE ≠ 0
          · rw [if_pos halloc, if_pos halloc]
            exact ⟨rfl, rfl⟩
          · rw [if_neg halloc] at hnear
            rw [if_neg halloc, if_neg halloc]
            have hloads : ∀ q ∈ ((A n).loads (get ph 4 4) (get ph 16 4) (get ph 16 4 / PGSIZE + 1) 0).1,
                (A n).NearRead q.1 q.2 := by
              intro q hq
              apply hnear
              split
              · exact List.mem_cons_of_mem _ (List.mem_append_left _ hq)
              · exact List.mem_cons_of_mem _ hq
            refine Ends.bind (h.loadLoop hat hdev hloads) ?_
            rintro ok _ _ ⟨rfl, rfl⟩
            split
            · rename_i hok
              rw [if_pos hok] at hnear
              exact ih hnext fun q hq => hnear q
                (List.mem_cons_of_mem _ (List.mem_append_right _ hq))
            · exact ⟨rfl, rfl⟩

/-- Loading from a device file changes nothing, whatever it reads. -/
theorem Shows.loadDevice (h : Shows near s A σ) (hat : At σ i n) (hdev : (A n).type = T_DEV)
    {phnum : ℕ} : Gives (Fs.loadSegments vm i phnum off sz s) fun _ t => s = t := by
  have hload : ∀ offset sz fuel k, Gives (Fs.loadLoop i offset sz fuel k s) fun _ t => s = t := by
    intro offset sz fuel
    induction fuel with
    | zero => exact fun _ => rfl
    | succ fuel ih =>
      intro k
      unfold Fs.loadLoop
      split
      · refine Ends.bind (h.readDevice hat hdev) ?_
        rintro r _ _ rfl
        split
        · exact ih _
        · exact rfl
      · exact rfl
  induction phnum generalizing off sz with
  | zero => exact rfl
  | succ phnum ih =>
    unfold Fs.loadSegments
    refine Ends.bind (h.readDevice hat hdev) ?_
    rintro r _ _ rfl
    dsimp only
    split
    · exact rfl
    · split
      · exact ih
      · split
        · exact rfl
        · split
          · exact rfl
          · refine Ends.bind (hload _ _ _ _) ?_
            rintro ok _ _ rfl
            split
            · exact ih
            · exact rfl

end Reads

section Exec

/-- exec logs nothing while it reads no double-indirect block. -/
theorem Good.exec (h : Good near s A σ E 0) (hcwd : cwd ∈ E)
    (hroom : Roomy A (looked A false (σ cwd).inum path))
    (hnear : ∀ v ∈ resolve A (σ cwd).inum path, (A v).NearExec vm) :
    Gives (Fs.exec vm cwd path s) fun _ t => Done near 0 E s A σ t E := by
  unfold Fs.exec
  refine Ends.bind (h.namei hcwd hroom) fun r t _ hname => ?_
  obtain ⟨σ₁, hname, hto⟩ := hname
  cases r with
  | none => exact hname.doneSilent fun _ => mem_refs
  | some ip =>
    have hname : Does near (E + 0) ∅ s A σ t A σ₁ E (ip ::ₘ 0) := hname
    dsimp only
    refine Ends.bind (hname.good.ilock mem_held) fun _ u _ hlock => ?_
    obtain ⟨σ₂, hlock, hat, _⟩ := hlock
    have hdoes := hname.trans (hlock.mono (fun _ => mem_held_of) (Set.Subset.refl _))
    have hshows := hdoes.good.shows
    have hreads : (A (σ₁ ip).inum).NearExec vm := hnear _ hto
    generalize (σ₁ ip).inum = n at *
    have hload : Gives ((do
        let elf ← Fs.readi ip 0 52
        if elf.1 ≠ 52 ∨ get elf.2 0 4 ≠ ELF_MAGIC ∨ vm.setupkvm = false then pure false
        else Fs.loadSegments vm ip (get elf.2 44 2) (get elf.2 28 4) 0 : M Bool) u) fun _ v =>
        u = v := by
      by_cases hdev : (A n).type = T_DEV
      · refine Ends.bind (hshows.readDevice hat hdev) ?_
        rintro elf _ _ rfl
        split
        · exact rfl
        · exact hshows.loadDevice hat hdev
      · have hreads := hreads.resolve_left hdev
        have hhead : (A n).NearRead 0 52 := by
          refine hreads (0, 52) ?_
          unfold Node.execReads
          dsimp only
          split
          · exact List.mem_cons_self ..
          · exact List.mem_cons_self ..
        refine Ends.bind (hshows.readNear hat hdev (by decide) (by decide) hhead) ?_
        rintro elf _ _ ⟨rfl, helf, hbytes⟩
        split
        · exact rfl
        · rename_i hgood
          have hfull : ((A n).read 0 52).1 = 52 := by
            rw [← helf]
            by_contra hne
            exact hgood (Or.inl hne)
          have hget : ∀ o len, o + len ≤ 52 → get elf.2 o len = get ((A n).read 0 52).2 o len := by
            intro o len hlen
            refine get_congr fun l _ hl => hbytes l ?_
            rw [helf, hfull]
            omega
          rw [helf, hget 0 4 (by omega)] at hgood
          unfold Node.execReads at hreads
          dsimp only at hreads
          rw [if_neg hgood] at hreads
          rw [hget 44 2 (by omega), hget 28 4 (by omega)]
          refine (hshows.loadSegments hat hdev (get_lt _ _ _) fun q hq => ?_).mono
            fun _ _ hq => hq.1
          exact hreads q (List.mem_cons_of_mem _ hq)
    refine gives_bind₂ hload fun ok v hsame => ?_
    obtain rfl := hsame
    refine Ends.bind hdoes.good.unlockPutBack fun _ w _ hput => ?_
    obtain ⟨σ₃, hput⟩ := hput
    exact (hdoes.trans hput).doneSilent fun _ => mem_refs

end Exec

end NorthOS.Fs
