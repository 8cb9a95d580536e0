import NorthOS.Paging

/-!
What the functions of vm.c do with pages, whatever the pages hold. Each run of a function on a
memory is a run of the program over the pool of free pages that PageTables.lean has for it. No
page is lost or made, therefore.
-/
namespace NorthOS.Paging

open Halting Halting.Comp Pool
open Vm (PGSIZE NPDENTRIES KERNBASE wrap PDX PTX PGROUNDUP PGROUNDDOWN)

section Forgetting

def Table.forget (t : Table) : Vm.Table := ⟨t.page, fun j => (t.pte j).map Pte.frame⟩

/-- The pages without the flags. -/
def Pgdir.forget (d : Pgdir) : Vm.Pgdir := ⟨d.page, fun i => (d.table i).map Table.forget⟩

/-- The pages that an address space has. -/
def Pgdir.pages (d : Pgdir) : Multiset ℕ := d.forget.pages

variable (d : Pgdir) (va page : ℕ)

theorem forget_table (i : ℕ) : d.forget.table i = (d.table i).map Table.forget := rfl

theorem forget_pte : d.forget.pte va = (d.pte va).map Pte.frame := by
  unfold Vm.Pgdir.pte Pgdir.pte Pgdir.walk
  rw [forget_table]
  cases d.table (PDX va) <;> rfl

theorem forget_setTable : (d.setTable va page).forget = d.forget.setTable va page := by
  unfold Pgdir.forget Pgdir.setTable Vm.Pgdir.setTable
  congr 1
  funext i
  dsimp only
  by_cases hi : i = PDX va
  · subst hi
    rw [Function.update_self, Function.update_self]
    rfl
  · rw [Function.update_of_ne hi, Function.update_of_ne hi]

theorem forget_setPte (x : Option Pte) :
    (d.setPte va x).forget = d.forget.setPte va (x.map Pte.frame) := by
  unfold Pgdir.forget Pgdir.setPte Vm.Pgdir.setPte
  congr 1
  funext i
  dsimp only
  by_cases hi : i = PDX va
  · subst hi
    rw [Function.update_self, Function.update_self]
    cases d.table (PDX va) with
    | none => rfl
    | some t =>
      show some (Table.forget _) = some _
      congr 1
      unfold Table.forget
      congr 1
      funext j
      dsimp only
      by_cases hj : j = PTX va
      · subst hj
        rw [Function.update_self, Function.update_self]
      · rw [Function.update_of_ne hj, Function.update_of_ne hj]
  · rw [Function.update_of_ne hi, Function.update_of_ne hi]

end Forgetting

section Refinement

variable {A B C D : Type} {x : M A} {p : Vm.M C} {f : A → C}

/-- Each run of `x` is a run of `p` over the free list. -/
def Refines (x : M A) (p : Vm.M C) (f : A → C) : Prop :=
  ∀ m, Gives (x m) fun a m' => p.Traces m.freelist (f a) m'.freelist

theorem refines_pure {a : A} {c : C} (h : f a = c) : Refines (pure a) (pure c) f :=
  fun _ => ⟨h.symm, rfl⟩

theorem refines_halt {e : Halt} : Refines (halt e) p f := fun _ => id

theorem Refines.bind {g : A → M B} {q : C → Vm.M D} {h : B → D} (hx : Refines x p f)
    (hg : ∀ a, Refines (g a) (q (f a)) h) : Refines (x >>= g) (p >>= q) h := by
  intro m
  refine Ends.bind (hx m) fun a t _ ht => ?_
  exact (hg a t).mono fun b u hu => Prog.traces_bind.mpr ⟨f a, t.freelist, ht, hu⟩

/-- What leaves the free list alone has no part in the program. -/
theorem Refines.after {y : M B} (hy : ∀ m, Gives (y m) fun _ m' => m'.freelist = m.freelist)
    {g : B → M A} (hg : ∀ b, Refines (g b) p f) : Refines (y >>= g) p f := by
  intro m
  refine Ends.bind (hy m) fun b t _ ht => ?_
  rw [← ht]
  exact hg b t

theorem refines_kalloc : Refines kalloc Prog.alloc id := by
  intro m
  unfold kalloc Prog.alloc
  split
  · exact .inl ⟨rfl, rfl⟩
  · exact .inl ⟨rfl, rfl⟩
  · rename_i page freelist hfree _
    exact .inr ⟨page, freelist, hfree, rfl, rfl⟩

theorem memset_freelist (page : ℕ) (c : UInt8) (m : Memory) :
    Gives (memset page c m) fun _ m' => m'.freelist = m.freelist := rfl

theorem refines_kfree (K : Kernel) (page : ℕ) :
    Refines (kfree K page) (Prog.free page) fun _ => ⟨⟩ := by
  intro m
  unfold kfree
  refine Ends.bind (Q := fun _ t => t = m) (ends_ensure (fun _ => rfl) fun _ => id) ?_
  rintro _ _ _ rfl
  exact ⟨rfl, rfl⟩

/-- What is accounted for in the program is accounted for in the memory. -/
theorem Refines.accounts (h : Refines x p f) {n : Multiset ℕ} {Q : C → Multiset ℕ → Prop}
    (hp : p.Accounts true n Q) (m : Memory) :
    Gives (x m) fun a m' => ∃ n', Q (f a) n' ∧ (m'.freelist : Multiset ℕ) + n' = m.freelist + n :=
  (h m).mono fun _ _ ht => hp.traces ht

end Refinement

section Functions

variable (K : Kernel) (d pgdir : Pgdir) (perm : BitVec 12) (a va pa n i oldsz newsz sz : ℕ)

/-- A directory and what else is returned with it. -/
abbrev forgetFst {A : Type} (r : Pgdir × A) : Vm.Pgdir × A := (r.1.forget, r.2)

theorem walkpgdir_refines :
    Refines (walkpgdir d va) (Vm.walkpgdir d.forget va) (Option.map Pgdir.forget) := by
  unfold walkpgdir Vm.walkpgdir
  rw [forget_table]
  cases d.table (PDX va) with
  | some t => exact refines_pure rfl
  | none =>
    refine refines_kalloc.bind fun page => ?_
    cases page with
    | none => exact refines_pure rfl
    | some page =>
      refine Refines.after (memset_freelist page 0) fun _ => ?_
      dsimp only [id]
      rw [← forget_setTable]
      exact refines_pure rfl

theorem mapLoop_refines :
    Refines (mapLoop perm n d a pa) (Vm.mapLoop n d.forget a pa) forgetFst := by
  induction n generalizing d a pa with
  | zero => exact refines_pure rfl
  | succ n ih =>
    unfold mapLoop Vm.mapLoop
    refine (walkpgdir_refines d a).bind fun r => ?_
    cases r with
    | none => exact refines_pure rfl
    | some d' =>
      dsimp only [Option.map_some]
      have hsome : (d'.forget.pte a).isSome = (d'.pte a).isSome := by
        rw [forget_pte, Option.isSome_map]
      rw [hsome]
      split
      · exact refines_halt
      · have hset := forget_setPte d' a (some (.mk' pa perm))
        rw [Option.map_some] at hset
        rw [show (some pa : Option ℕ) = some (Pte.mk' pa perm).frame from rfl, ← hset]
        exact ih _ _ _

theorem mappages_refines (size : ℕ) :
    Refines (mappages d va size pa perm) (Vm.mappages d.forget va size pa) forgetFst :=
  mapLoop_refines d perm _ _ _

theorem deallocLoop_refines :
    Refines (deallocLoop K d a oldsz) (Vm.deallocLoop d.forget a oldsz) Pgdir.forget := by
  induction hm : oldsz - a using Nat.strong_induction_on generalizing d a with
  | _ m ih =>
    rw [deallocLoop, Vm.deallocLoop]
    split
    · rename_i hlt
      have hless : oldsz - (a + PGSIZE) < m := by
        unfold PGSIZE
        omega
      unfold Pgdir.walk
      rw [forget_table]
      cases ht : d.table (PDX a) with
      | none => exact ih _ (by omega) _ _ rfl
      | some t =>
        dsimp only [Option.map_some]
        have hpte : t.forget.pte (PTX a) = (t.pte (PTX a)).map Pte.frame := rfl
        rw [hpte]
        cases t.pte (PTX a) with
        | none => exact ih _ hless _ _ rfl
        | some e =>
          dsimp only [Option.map_some]
          split
          · exact refines_halt
          · refine (refines_kfree K e.frame).bind fun _ => ?_
            have hset := forget_setPte d a none
            rw [Option.map_none] at hset
            rw [← hset]
            exact ih _ hless _ _ rfl
    · exact refines_pure rfl

theorem deallocuvm_refines :
    Refines (deallocuvm K d oldsz newsz) (Vm.deallocuvm d.forget oldsz newsz) forgetFst := by
  unfold deallocuvm Vm.deallocuvm
  split
  · exact refines_pure rfl
  · exact (deallocLoop_refines K d _ _).bind fun d' => refines_pure rfl

theorem freeTables_refines (is : List ℕ) :
    Refines (freeTables K d is) (Vm.freeTables d.forget is) fun _ => ⟨⟩ := by
  induction is with
  | nil => exact refines_pure rfl
  | cons i rest ih =>
    unfold freeTables Vm.freeTables
    rw [forget_table]
    cases d.table i with
    | none => exact ih
    | some t => exact (refines_kfree K t.page).bind fun _ => ih

theorem freevm_refines : Refines (freevm K d) (Vm.freevm d.forget) fun _ => ⟨⟩ := by
  unfold freevm Vm.freevm
  generalize List.range NPDENTRIES = is
  refine (deallocuvm_refines K d KERNBASE 0).bind fun r => ?_
  refine (freeTables_refines K r.1 is).bind fun _ => ?_
  exact refines_kfree K r.1.page

theorem setupLoop_refines (ks : List ((ℕ × ℕ × ℕ) × BitVec 12)) :
    Refines (setupLoop K ks d) (Vm.setupLoop (ks.map Prod.fst) d.forget)
      (Option.map Pgdir.forget) := by
  induction ks generalizing d with
  | nil => exact refines_pure rfl
  | cons k rest ih =>
    obtain ⟨⟨virt, phys_start, phys_end⟩, perm⟩ := k
    rw [List.map_cons]
    unfold setupLoop Vm.setupLoop
    refine (mappages_refines d perm virt _ _).bind fun r => ?_
    obtain ⟨d', ok⟩ := r
    dsimp only [forgetFst]
    split
    · exact ih d'
    · exact (freevm_refines K d').bind fun _ => refines_pure rfl

theorem setupkvm_refines :
    Refines (setupkvm K) (Vm.setupkvm K.toLayout) (Option.map Pgdir.forget) := by
  have hks : K.kmap.map Prod.fst = K.toLayout.kmap := rfl
  unfold setupkvm Vm.setupkvm
  refine refines_kalloc.bind fun page => ?_
  cases page with
  | none => exact refines_pure rfl
  | some page =>
    refine Refines.after (memset_freelist page 0) fun _ => ?_
    dsimp only [id]
    rw [← hks]
    exact setupLoop_refines K ⟨page, fun _ => none⟩ K.kmap

theorem allocLoop_refines :
    Refines (allocLoop K d a oldsz newsz) (Vm.allocLoop d.forget a oldsz newsz) forgetFst := by
  induction hm : newsz - a using Nat.strong_induction_on generalizing d a with
  | _ m ih =>
    rw [allocLoop, Vm.allocLoop]
    split
    · rename_i hlt
      refine refines_kalloc.bind fun mem => ?_
      cases mem with
      | none => exact (deallocuvm_refines K d newsz oldsz).bind fun r => refines_pure rfl
      | some mem =>
        refine Refines.after (memset_freelist mem 0) fun _ => ?_
        refine (mappages_refines d _ a mem PGSIZE).bind fun r => ?_
        obtain ⟨d', ok⟩ := r
        dsimp only [forgetFst]
        split
        · refine ih _ ?_ _ _ rfl
          unfold PGSIZE
          omega
        · refine (deallocuvm_refines K d' newsz oldsz).bind fun r => ?_
          exact (refines_kfree K mem).bind fun _ => refines_pure rfl
    · exact refines_pure rfl

theorem allocuvm_refines :
    Refines (allocuvm K d oldsz newsz) (Vm.allocuvm d.forget oldsz newsz) forgetFst := by
  unfold allocuvm Vm.allocuvm
  split
  · exact refines_pure rfl
  · split
    · exact refines_pure rfl
    · exact allocLoop_refines K d _ oldsz newsz

end Functions

section Conservation

variable {K : Kernel} {d : Pgdir} {perm : BitVec 12} {a va mem size oldsz newsz sz : ℕ}

/-- Of the pages on the free list and those that are held none is lost and none is new. -/
def Conserves (m : Memory) (held : Multiset ℕ) (m' : Memory) (held' : Multiset ℕ) : Prop :=
  (m'.freelist : Multiset ℕ) + held' = m.freelist + held

theorem Conserves.trans {m m' m'' : Memory} {n n' n'' : Multiset ℕ} (h : Conserves m n m' n')
    (h' : Conserves m' n' m'' n'') : Conserves m n m'' n'' := Eq.trans h' h

/-- What is held besides takes no part. -/
theorem Conserves.add {m m' : Memory} {n n' : Multiset ℕ} (h : Conserves m n m' n')
    (others : Multiset ℕ) : Conserves m (n + others) m' (n' + others) := by
  unfold Conserves at h ⊢
  rw [← add_assoc, ← add_assoc, h]

/-- A run of a program that is accounted for, where the result tells what is held. -/
theorem Refines.conserves {A C : Type} {x : M A} {p : Vm.M C} {f : A → C} (h : Refines x p f)
    {n : Multiset ℕ} {held : C → Multiset ℕ} (hp : p.Accounts true n fun c n' => n' = held c)
    (m : Memory) : Gives (x m) fun r m' => Conserves m n m' (held (f r)) := by
  refine (h.accounts hp m).mono fun r m' hr => ?_
  obtain ⟨n', rfl, htotal⟩ := hr
  exact htotal

theorem walkpgdir_conserves (m : Memory) :
    Gives (walkpgdir d va m) fun r m' => Conserves m d.pages m' (r.getD d).pages := by
  have hp : (Vm.walkpgdir d.forget va).Accounts true (d.pages + 0)
      fun r n => n = (r.getD d.forget).pages :=
    Vm.walkpgdir_accounts (fun _ => add_zero _) fun d' _ _ => add_zero _
  rw [add_zero] at hp
  refine ((walkpgdir_refines d va).conserves hp m).mono fun r m' h => ?_
  cases r with
  | none => exact h
  | some d' => exact h

/-- The mapping of one user page, which is not held any more when it is mapped. -/
theorem mappages_conserves (hal : a % PGSIZE = 0) (ha : a < KERNBASE) (m : Memory) :
    Gives (mappages d a PGSIZE mem perm m) fun r m' =>
      Conserves m (mem ::ₘ d.pages) m' (if r.2 then r.1.pages else mem ::ₘ r.1.pages) := by
  have hp : (Vm.mappages d.forget a PGSIZE mem).Accounts true (mem ::ₘ (d.pages + 0))
      fun r n => n = if r.2 then r.1.pages else mem ::ₘ r.1.pages :=
    Vm.mappages_user hal ha (fun d' => (add_zero d'.pages).trans (if_pos rfl).symm)
      fun _ d' => (congrArg _ (add_zero d'.pages)).trans (if_neg Bool.false_ne_true).symm
  rw [add_zero] at hp
  exact (mappages_refines d perm a mem PGSIZE).conserves hp m

/-- The kernel's own mappings hold the page tables only. -/
theorem mappages_kernel_conserves {pa : ℕ} (hva : Vm.Above va size) (m : Memory) :
    Gives (mappages d va size pa perm m) fun r m' => Conserves m d.pages m' r.1.pages := by
  have hp : (Vm.mappages d.forget va size pa).Accounts true (d.pages + 0)
      fun r n => n = r.1.pages := Vm.mappages_kernel hva fun _ _ => add_zero _
  rw [add_zero] at hp
  exact (mappages_refines d perm va pa size).conserves hp m

theorem deallocuvm_conserves (hold : oldsz ≤ KERNBASE) (m : Memory) :
    Gives (deallocuvm K d oldsz newsz m) fun r m' => Conserves m d.pages m' r.1.pages := by
  have hp : (Vm.deallocuvm d.forget oldsz newsz).Accounts true (d.pages + 0)
      fun r n => n = r.1.pages := Vm.deallocuvm_accounts hold fun _ _ _ => add_zero _
  rw [add_zero] at hp
  exact (deallocuvm_refines K d oldsz newsz).conserves hp m

theorem freevm_conserves (m : Memory) :
    Gives (freevm K d m) fun _ m' => Conserves m d.pages m' 0 := by
  have hp : (Vm.freevm d.forget).Accounts true (d.pages + 0) fun _ n => n = 0 :=
    Vm.freevm_accounts rfl
  rw [add_zero] at hp
  have hp' : (Vm.freevm d.forget).Accounts true d.pages fun c n => n = (fun _ => 0 : _ → Multiset ℕ) c := hp
  exact (freevm_refines K d).conserves hp' m

theorem setupkvm_conserves (m : Memory) :
    Gives (setupkvm K m) fun r m' => Conserves m 0 m' (r.elim 0 Pgdir.pages) := by
  have hp : (Vm.setupkvm K.toLayout).Accounts true 0 fun r n => n = r.elim 0 Vm.Pgdir.pages :=
    Vm.setupkvm_accounts K.toLayout rfl fun d' => (add_zero d'.pages).trans
      (Option.elim_some ..).symm
  refine ((setupkvm_refines K).conserves hp m).mono fun r m' h => ?_
  cases r with
  | none => exact h
  | some d => exact h

theorem allocuvm_conserves (hold : oldsz < KERNBASE ∨ oldsz ≤ newsz) (m : Memory) :
    Gives (allocuvm K d oldsz newsz m) fun r m' => Conserves m d.pages m' r.1.pages := by
  have hp : (Vm.allocuvm d.forget oldsz newsz).Accounts true (d.pages + 0)
      fun r n => n = r.1.pages := Vm.allocuvm_accounts hold fun _ _ _ => add_zero _
  rw [add_zero] at hp
  exact (allocuvm_refines K d oldsz newsz).conserves hp m

end Conservation

-- the sum over all entries is never to be computed
attribute [irreducible] Pgdir.pages

end NorthOS.Paging
