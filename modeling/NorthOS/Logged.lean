import Mathlib.Data.Finset.Card
import Mathlib.Data.Finset.Insert
import Mathlib.Order.Interval.Finset.Nat
import NorthOS.Contents

/-!
The blocks that the functions of fs.c pass to log_write, counted on the header of the
log. A function on the inode of slot `i` logs bitmap blocks, the block of the inode,
and data and index blocks, of which there are at most three for each file block.
-/
namespace NorthOS.Fs

open LittleEndian Halting Comp

/-- Slot `i` has inode `n` of a volume of mkfs, and the hint of balloc is a block. -/
structure Ready (i n : ℕ) (s : State) : Prop where
  sb : s.sb = mkfsSuperblock
  hint : s.last_alloc_hint < nblocks
  inum : (s.icache i).inum = n

/-- The header has at most the blocks of `X` more, each once. -/
structure Logged (X : Set ℕ) (s t : State) : Prop where
  nodup : s.log.lh.Nodup → t.log.lh.Nodup
  only : ∀ b ∈ t.log.lh, b ∈ s.log.lh ∨ b ∈ X

def LogsAt (i n : ℕ) (X : Set ℕ) (s t : State) : Prop := Ready i n s → Ready i n t ∧ Logged X s t

/-- Every run that returns logs blocks of `X` only. -/
abbrev Logs {B : Type} (i n : ℕ) (X : Set ℕ) (x : M B) : Prop := Within (fun _ => False) (LogsAt i n X) x

def bitmapBlocks : Finset ℕ := Finset.Ico mkfsSuperblock.bmapstart nmeta

variable {i n dev b k j m fuel : ℕ} {s t u : State} {X Y : Set ℕ}

theorem bitmapBlocks_card : bitmapBlocks.card = nbitmap := rfl

theorem BMAPBLOCK_mem (h : b < nblocks) : BMAPBLOCK b mkfsSuperblock ∈ bitmapBlocks := by
  have hb : b < 25553 := h
  have hlo : mkfsSuperblock.bmapstart = 45 := rfl
  have hhi : nmeta = 47 := rfl
  have hdiv : b / BPB = b / 16384 := rfl
  rw [bitmapBlocks, Finset.mem_Ico, BMAPBLOCK]
  omega

section Relation

theorem Logged.refl (X : Set ℕ) (s : State) : Logged X s s := ⟨id, fun _ hb => Or.inl hb⟩

theorem Logged.trans (h : Logged X s t) (h' : Logged X t u) : Logged X s u where
  nodup := fun hs => h'.nodup (h.nodup hs)
  only := by
    intro b hb
    rcases h'.only b hb with hb | hb
    · exact h.only b hb
    · exact Or.inr hb

theorem Logged.mono (h : Logged X s t) (hXY : X ⊆ Y) : Logged Y s t :=
  ⟨h.nodup, fun b hb => (h.only b hb).imp id fun hX => hXY hX⟩

theorem logsAt_composes : Composes (LogsAt i n X) where
  refl := fun s hs => ⟨hs, Logged.refl X s⟩
  trans := by
    intro s t u h h' hs
    obtain ⟨ht, hst⟩ := h hs
    obtain ⟨hu, htu⟩ := h' ht
    exact ⟨hu, hst.trans htu⟩

theorem LogsAt.mono (h : LogsAt i n X s t) (hXY : X ⊆ Y) : LogsAt i n Y s t :=
  fun hs => ⟨(h hs).1, (h hs).2.mono hXY⟩

theorem Logs.mono {B : Type} {x : M B} (h : Logs i n X x) (hXY : X ⊆ Y) : Logs i n Y x :=
  Within.mono h (fun _ _ hst => LogsAt.mono hst hXY) fun _ => id

/-- Only states that are ready count. -/
theorem gives_of_ready {B : Type} {x : M B} {F : B → Set ℕ}
    (h : Ready i n s → Gives (x s) fun a t => LogsAt i n (F a) s t) :
    Gives (x s) fun a t => LogsAt i n (F a) s t := by
  by_cases hs : Ready i n s
  · exact h hs
  · exact gives_iff.mpr fun _ _ _ h' => absurd h' hs

/-- What touches neither the log nor the superblock, the hint or the inode numbers. -/
theorem logs_update {f : State → State} (hsb : ∀ s, (f s).sb = s.sb)
    (hhint : ∀ s, (f s).last_alloc_hint = s.last_alloc_hint) (hlog : ∀ s, (f s).log = s.log)
    (hinum : ∀ s, ((f s).icache i).inum = (s.icache i).inum) : Logs i n X (update f) := by
  apply within_update
  intro s hs
  refine ⟨⟨(hsb s).trans hs.sb, by rw [hhint]; exact hs.hint, (hinum s).trans hs.inum⟩, ?_, ?_⟩
  · rw [hlog]
    exact id
  · rw [hlog]
    exact fun _ hb => Or.inl hb

end Relation

section Buffers

theorem logs_pure {B : Type} {a : B} : Logs i n X (pure a : M B) := within_pure logsAt_composes

theorem logs_look {B : Type} {f : State → B} :
    Logs i n X (look f : M B) := within_look logsAt_composes

theorem logs_ensure {p : State → Bool} {e : Halt} : Logs i n X (ensure p e : M Unit) :=
  within_ensure logsAt_composes id

theorem Logs.bind {A B : Type} {x : M A} {f : A → M B} (h : Logs i n X x)
    (hf : ∀ a, Logs i n X (f a)) : Logs i n X (x >>= f) := Within.bind logsAt_composes h hf

theorem bread_logs : Logs i n X (bread dev b) :=
  Logs.bind logs_ensure fun _ => Logs.bind logs_ensure fun _ =>
    Logs.bind (logs_update (fun _ => rfl) (fun _ => rfl) (fun _ => rfl) fun _ => rfl)
      fun _ => logs_look

theorem brelse_logs : Logs i n X (brelse dev b) :=
  Logs.bind logs_ensure fun _ =>
    logs_update (fun _ => rfl) (fun _ => rfl) (fun _ => rfl) fun _ => rfl

theorem setData_logs {f : Bytes → Bytes} : Logs i n X (setData dev b f) :=
  logs_update (fun _ => rfl) (fun _ => rfl) (fun _ => rfl) fun _ => rfl

theorem setSlot_logs {f : Inode → Inode} (hf : ∀ ip, (f ip).inum = ip.inum) :
    Logs i n X (setSlot k f) := by
  refine logs_update (fun _ => rfl) (fun _ => rfl) (fun _ => rfl) fun s => ?_
  by_cases hik : i = k
  · rw [hik, setSlot_self]
    exact hf _
  · rw [setSlot_other _ _ _ hik]

theorem logWrite_logs (hb : b ∈ X) : Logs i n X (logWrite b) := by
  intro s
  apply gives_iff.mpr
  intro _ t hrun hs
  unfold logWrite at hrun
  split at hrun
  · rename_i log hlog
    obtain ⟨_, _, _, rfl⟩ := Log.logWrite_ok.mp hlog
    obtain ⟨_, rfl⟩ := Prod.mk.inj (Except.ok.inj hrun)
    refine ⟨⟨hs.sb, hs.hint, hs.inum⟩, ?_, ?_⟩
    · intro hnodup
      dsimp only
      split
      · exact hnodup
      · rename_i hnew
        rw [← List.concat_eq_append]
        exact hnodup.concat hnew
    · intro c hc
      dsimp only at hc
      split at hc
      · exact Or.inl hc
      · rcases List.mem_append.mp hc with hc | hc
        · exact Or.inl hc
        · exact Or.inr (by rwa [List.mem_singleton.mp hc])
  · cases hrun

theorem bzero_logs (hb : b ∈ X) : Logs i n X (bzero dev b) :=
  Logs.bind logs_ensure fun _ => Logs.bind bread_logs fun _ => Logs.bind setData_logs fun _ =>
    Logs.bind (logWrite_logs hb) fun _ => brelse_logs

end Buffers

section Bitmap

/-- A step that logs blocks of `X`, and what follows it, up to `Y`. -/
theorem Logs.then {A B : Type} {x : M A} {f : A → M B} {F : B → Set ℕ} (h : Logs i n X x)
    (hX : ∀ b, X ⊆ F b) (hf : ∀ a t, Gives (f a t) fun b u => LogsAt i n (F b) t u) :
    Gives ((x >>= f) s) fun b u => LogsAt i n (F b) s u := by
  refine Ends.bind (h s) fun a t _ hst => ?_
  exact (hf a t).mono fun b u htu => logsAt_composes.trans (hst.mono (hX b)) htu

/-- The bitmap blocks, and the block found if there is one. -/
def found (r : Option ℕ) : Set ℕ := {b | b ∈ bitmapBlocks ∨ r = some b}

theorem bitmap_sub_found (r : Option ℕ) : (bitmapBlocks : Set ℕ) ⊆ found r := fun _ hb => Or.inl hb

theorem scanBits_logs (hk : k ∈ bitmapBlocks) :
    Gives (scanBits dev k m fuel j s) fun r t => LogsAt i n (found r) s t := by
  have hbit : k ∈ (bitmapBlocks : Set ℕ) := hk
  induction fuel generalizing j s with
  | zero => exact logsAt_composes.refl s
  | succ fuel ih =>
    unfold scanBits
    refine Logs.then (X := bitmapBlocks) logs_look bitmap_sub_found fun data t => ?_
    split
    · exact ih
    · refine Logs.then setData_logs bitmap_sub_found fun _ t => ?_
      refine Logs.then (logWrite_logs hbit) bitmap_sub_found fun _ t => ?_
      refine Logs.then brelse_logs bitmap_sub_found fun _ t => ?_
      refine gives_of_ready fun ht => ?_
      refine Ends.bind (Q := fun sb u => sb = mkfsSuperblock ∧ t = u) ⟨ht.sb, rfl⟩ ?_
      rintro sb _ _ ⟨rfl, rfl⟩
      dsimp only
      split
      · exact ih
      · rename_i hbound
        have hlt : (k - mkfsSuperblock.bmapstart) * BPB + (m * 8 + j) < nblocks := by
          rw [ge_iff_le, Nat.not_le] at hbound
          exact hbound
        have hzero : Logs i n (found (some ((k - mkfsSuperblock.bmapstart) * BPB + (m * 8 + j))))
            (bzero dev ((k - mkfsSuperblock.bmapstart) * BPB + (m * 8 + j))) :=
            bzero_logs (Or.inr rfl)
        refine Ends.bind (hzero _) fun _ u _ hu => ?_
        refine Ends.bind (Q := fun _ w => LogsAt i n
          (found (some ((k - mkfsSuperblock.bmapstart) * BPB + (m * 8 + j)))) u w) ?_ ?_
        · intro hready
          exact ⟨⟨hready.sb, hlt, hready.inum⟩, id, fun _ hb => Or.inl hb⟩
        · intro _ w _ hw
          exact logsAt_composes.trans hu hw

theorem scanWords_logs (hk : k ∈ bitmapBlocks) :
    Gives (scanWords dev k fuel j s) fun r t => LogsAt i n (found r) s t := by
  induction fuel generalizing j s with
  | zero => exact logsAt_composes.refl s
  | succ fuel ih =>
    unfold scanWords
    refine Logs.then (X := bitmapBlocks) logs_look bitmap_sub_found fun data t => ?_
    refine Ends.bind (Q := fun r u => LogsAt i n (found r) t u) ?_ ?_
    · split
      · exact scanBits_logs hk
      · exact logsAt_composes.refl t
    · intro r u _ htu
      cases r with
      | some bno => exact htu
      | none =>
        refine ih.mono fun r w huw => logsAt_composes.trans (htu.mono ?_) huw
        intro b hb
        exact hb.imp id fun h => nomatch h

theorem scanBlocks_logs (hk : ∀ c, k ≤ c → c < k + fuel → c ∈ bitmapBlocks) :
    Gives (scanBlocks dev fuel k s) fun r t => LogsAt i n (found r) s t := by
  induction fuel generalizing k s with
  | zero => exact logsAt_composes.refl s
  | succ fuel ih =>
    unfold scanBlocks
    refine Logs.then (X := bitmapBlocks) bread_logs bitmap_sub_found fun _ t => ?_
    refine Ends.bind (scanWords_logs (i := i) (n := n) (hk k (by omega) (by omega)))
      fun r u _ htu => ?_
    cases r with
    | some bno => exact htu
    | none =>
      have hrest := Logs.then (i := i) (n := n) (s := u) (X := bitmapBlocks) (x := brelse dev k)
        (f := fun _ => scanBlocks dev fuel (k + 1)) brelse_logs bitmap_sub_found
        fun _ w => ih fun c hlo hhi => hk c (by omega) (by omega)
      refine hrest.mono fun r w huw => logsAt_composes.trans (htu.mono ?_) huw
      intro b hb
      exact hb.imp id fun h => nomatch h

/-- balloc logs bitmap blocks and the block it returns. -/
theorem balloc_logs : Gives (balloc dev s) fun b t => LogsAt i n (found (some b)) s t := by
  refine gives_of_ready fun hs => ?_
  have hhint : s.last_alloc_hint / BPB ≤ 1 := by
    have h : s.last_alloc_hint < 25553 := hs.hint
    have hdiv : s.last_alloc_hint / BPB = s.last_alloc_hint / 16384 := rfl
    omega
  have hmem : ∀ c, 45 ≤ c → c < 47 → c ∈ bitmapBlocks := fun c hlo hhi => Finset.mem_Ico.mpr
      ⟨hlo, hhi⟩
  have hstart : mkfsSuperblock.bmapstart = 45 := rfl
  have hend : min (mkfsSuperblock.bmapstart + mkfsSuperblock.nblocks / BPB + 1)
      (mkfsSuperblock.bmapstart + mkfsSuperblock.size / BPB + 1) = 47 := rfl
  unfold balloc
  refine Ends.bind (Q := fun sb u => sb = mkfsSuperblock ∧ s = u) ⟨hs.sb, rfl⟩ ?_
  rintro sb _ _ ⟨rfl, rfl⟩
  refine Ends.bind (Q := fun h u => s.last_alloc_hint = h ∧ s = u) ⟨rfl, rfl⟩ ?_
  rintro h _ _ ⟨rfl, rfl⟩
  dsimp only
  rw [hend, hstart]
  generalize s.last_alloc_hint / BPB = q at *
  have hfirst : Gives (scanBlocks dev (47 - (45 + q)) (45 + q) s)
      fun r t => LogsAt i n (found r) s t :=
    scanBlocks_logs fun c hlo hhi => hmem c (by omega) (by omega)
  refine Ends.bind hfirst fun r t _ hst => ?_
  cases r with
  | some bno => exact hst
  | none =>
    have hsecond : Gives (scanBlocks dev q 45 t)
        fun r u => LogsAt i n (found r) t u :=
      scanBlocks_logs fun c hlo hhi => hmem c hlo (by omega)
    refine Ends.bind hsecond fun r u _ htu => ?_
    cases r with
    | some bno =>
      refine logsAt_composes.trans (hst.mono ?_) htu
      intro b hb
      exact hb.imp id fun h => nomatch h
    | none => exact id

theorem bfree_logs (hX : (bitmapBlocks : Set ℕ) ⊆ X) : Logs i n X (bfree dev b) := by
  intro s
  refine gives_of_ready (F := fun _ => X) fun hs => ?_
  unfold bfree
  refine Ends.bind (Q := fun sb u => sb = mkfsSuperblock ∧ s = u) ⟨hs.sb, rfl⟩ ?_
  rintro sb _ _ ⟨rfl, rfl⟩
  refine Ends.bind (Q := fun _ u => b < nblocks ∧ s = u) (gives_ensure fun h => ?_) ?_
  · exact ⟨of_decide_eq_true h, rfl⟩
  · rintro _ _ _ ⟨hb, rfl⟩
    have hmem : BMAPBLOCK b mkfsSuperblock ∈ X := hX (BMAPBLOCK_mem hb)
    have hrest : Logs i n X (do
        let data ← bread dev (BMAPBLOCK b mkfsSuperblock)
        ensure (fun _ => Bitmap.test data (b % BPB)) .bfreeFree
        setData dev (BMAPBLOCK b mkfsSuperblock) fun d => Bitmap.clear d (b % BPB)
        logWrite (BMAPBLOCK b mkfsSuperblock)
        brelse dev (BMAPBLOCK b mkfsSuperblock) : M Unit) :=
      Logs.bind bread_logs fun _ => Logs.bind logs_ensure fun _ => Logs.bind setData_logs fun _ =>
        Logs.bind (logWrite_logs hmem) fun _ => brelse_logs
    exact hrest s

end Bitmap

section Inodes

theorem iupdate_logs (hX : IBLOCK n mkfsSuperblock ∈ X) : Logs i n X (iupdate i) := by
  intro s
  refine gives_of_ready (F := fun _ => X) fun hs => ?_
  unfold iupdate
  refine Ends.bind (Q := fun _ u => s = u) (gives_ensure fun _ => rfl) ?_
  rintro _ _ _ rfl
  refine Ends.bind (Q := fun ip u => ip.inum = n ∧ s = u) ⟨hs.inum, rfl⟩ ?_
  rintro ip _ _ ⟨hinum, rfl⟩
  refine Ends.bind (Q := fun sb u => sb = mkfsSuperblock ∧ s = u) ⟨hs.sb, rfl⟩ ?_
  rintro sb _ _ ⟨rfl, rfl⟩
  rw [hinum]
  have hrest : Logs i n X (do
      let _ ← bread ip.dev (IBLOCK n mkfsSuperblock)
      setData ip.dev (IBLOCK n mkfsSuperblock) fun b => storeDinode b (dinodeOffset n) ip
      logWrite (IBLOCK n mkfsSuperblock)
      brelse ip.dev (IBLOCK n mkfsSuperblock) : M Unit) :=
    Logs.bind bread_logs fun _ => Logs.bind setData_logs fun _ =>
      Logs.bind (logWrite_logs hX) fun _ => brelse_logs
  exact hrest s

theorem getAddr_logs : Logs i n X (getAddr i k) := Logs.bind logs_ensure fun _ => logs_look

/-- Also an assignment behind the array changes no inode number. -/
theorem setAddr_logs {addr : ℕ} : Logs i n X (setAddr i k addr) := by
  refine Logs.bind logs_ensure fun _ => logs_update ?_ ?_ ?_ ?_
  · intro s
    split
    · rfl
    · split <;> rfl
  · intro s
    split
    · rfl
    · split <;> rfl
  · intro s
    split
    · rfl
    · split <;> rfl
  · intro s
    split
    · rw [setSlot_self]
    · split
      · rw [setSlot_other _ _ _ (by omega)]
      · rfl

theorem freeEntries_logs (hX : (bitmapBlocks : Set ℕ) ⊆ X) {inner : ℕ → M Unit}
    (hinner : ∀ a, Logs i n X (inner a)) {addr : ℕ} : Logs i n X (freeEntries i inner addr) := by
  unfold freeEntries
  generalize NINDIRECT = m
  refine Logs.bind logs_look fun dev => Logs.bind bread_logs fun _ => ?_
  refine Logs.bind (within_forBelow logsAt_composes fun j _ => ?_) fun _ => brelse_logs
  refine Logs.bind logs_look fun a => Within.ite logs_pure ?_
  exact Logs.bind (hinner _) fun _ => Logs.bind logs_look fun _ => bfree_logs hX

theorem freeAddr_logs (hX : (bitmapBlocks : Set ℕ) ⊆ X) {inner : ℕ → M Unit}
    (hinner : ∀ a, Logs i n X (inner a)) : Logs i n X (freeAddr i k inner) := by
  unfold freeAddr
  refine Logs.bind getAddr_logs fun addr => Within.ite logs_pure ?_
  refine Logs.bind (hinner _) fun _ => Logs.bind logs_look fun _ => ?_
  exact Logs.bind getAddr_logs fun _ => Logs.bind (bfree_logs hX) fun _ => setAddr_logs

theorem itrunc_logs (hX : (bitmapBlocks : Set ℕ) ⊆ X) (hinode : IBLOCK n mkfsSuperblock ∈ X) :
    Logs i n X (itrunc i) := by
  have hleaf : ∀ a, Logs i n X (freeEntries i (fun _ => pure ()) a) :=
    fun _ => freeEntries_logs hX fun _ => logs_pure
  unfold itrunc
  refine Logs.bind (within_forBelow logsAt_composes fun k _ => ?_) fun _ => ?_
  · exact freeAddr_logs hX fun _ => logs_pure
  refine Logs.bind (freeAddr_logs hX hleaf) fun _ => ?_
  refine Logs.bind (freeAddr_logs hX fun _ => freeEntries_logs hX hleaf) fun _ => ?_
  exact Logs.bind (setSlot_logs fun _ => rfl) fun _ => iupdate_logs hinode

/-- A last iput logs the bitmap and the block of the inode. -/
theorem iput_logs (hX : (bitmapBlocks : Set ℕ) ⊆ X) (hinode : IBLOCK n mkfsSuperblock ∈ X) :
    Logs i n X (iput i) := by
  unfold iput
  refine Logs.bind logs_ensure fun _ => Logs.bind (setSlot_logs fun _ => rfl) fun _ => ?_
  refine Logs.bind logs_look fun ip => Logs.bind (Within.ite ?_ logs_pure) fun _ => ?_
  · refine Logs.bind (itrunc_logs hX hinode) fun _ => ?_
    refine Logs.bind (setSlot_logs fun _ => rfl) fun _ => ?_
    exact Logs.bind (iupdate_logs hinode) fun _ => setSlot_logs fun _ => rfl
  · exact Logs.bind (setSlot_logs fun _ => rfl) fun _ => setSlot_logs fun _ => rfl

theorem iunlock_logs : Logs i n X (iunlock k) := Logs.bind logs_ensure fun _ => setSlot_logs
      fun _ => rfl

theorem ilock_logs : Logs i n X (ilock k) := by
  unfold ilock
  refine Logs.bind logs_ensure fun _ => Logs.bind logs_ensure fun _ => ?_
  refine Logs.bind (setSlot_logs fun _ => rfl) fun _ => Logs.bind logs_look fun ip => ?_
  refine Within.ite logs_pure ?_
  refine Logs.bind logs_look fun sb => Logs.bind bread_logs fun data => ?_
  refine Logs.bind (setSlot_logs fun _ => rfl) fun _ => Logs.bind brelse_logs fun _ => ?_
  exact Logs.bind (setSlot_logs fun _ => rfl) fun _ => logs_ensure

end Inodes

section FileBlocks

/-- The bitmap blocks and the blocks of `D`. -/
def bitmapAnd (D : Finset ℕ) : Set ℕ := {b | b ∈ bitmapBlocks ∨ b ∈ D}

theorem bitmapAnd_mono {D E : Finset ℕ} (h : D ⊆ E) : bitmapAnd D ⊆ bitmapAnd E :=
  fun _ hb => hb.imp id fun hD => h hD

theorem bitmapAnd_self {D : Finset ℕ} (hb : b ∈ D) : b ∈ bitmapAnd D := Or.inr hb

theorem found_sub {a : ℕ} {D : Finset ℕ} (ha : a ∈ D) : found (some a) ⊆ bitmapAnd D := by
  intro b hb
  refine hb.imp id fun h => ?_
  rwa [← Option.some.inj h]

theorem addrEntry_logs : Gives (addrEntry i k s) fun a t => LogsAt i n (bitmapAnd {a}) s t := by
  have hsub : ∀ a, (∅ : Set ℕ) ⊆ bitmapAnd {a} := fun _ => Set.empty_subset _
  unfold addrEntry
  refine Logs.then getAddr_logs hsub fun addr t => ?_
  split
  · refine Logs.then logs_look hsub fun dev t => ?_
    refine Ends.bind (balloc_logs (i := i) (n := n)) fun a u _ htu => ?_
    have hset : Logs i n (bitmapAnd {a}) (setAddr i k a) := setAddr_logs
    refine Ends.bind (hset u) fun _ w _ huw => ?_
    exact logsAt_composes.trans (htu.mono (found_sub (Finset.mem_singleton_self a))) huw
  · exact logsAt_composes.refl t

/-- The index block is logged only with an entry that it gets. -/
theorem indexEntry_logs {addr : ℕ} :
    Gives (indexEntry i addr k s) fun a t => LogsAt i n (bitmapAnd {addr, a}) s t := by
  have hsub : ∀ a, (∅ : Set ℕ) ⊆ bitmapAnd {addr, a} := fun _ => Set.empty_subset _
  unfold indexEntry
  refine Logs.then logs_look hsub fun dev t => Logs.then bread_logs hsub fun data t => ?_
  split
  · refine Logs.then logs_look hsub fun dev' t => ?_
    refine Ends.bind (balloc_logs (i := i) (n := n)) fun a u _ htu => ?_
    have hmem : addr ∈ bitmapAnd {addr, a} := bitmapAnd_self (Finset.mem_insert_self _ _)
    have hnew : a ∈ ({addr, a} : Finset ℕ) := by simp
    have hstore : Logs i n (bitmapAnd {addr, a}) (setData dev addr fun b => put b (4 * k) 4 a) :=
      setData_logs
    have hlog : Logs i n (bitmapAnd {addr, a}) (logWrite addr) := logWrite_logs hmem
    have hrelse : Logs i n (bitmapAnd {addr, a}) (brelse dev addr) := brelse_logs
    refine Ends.bind (hstore u) fun _ u₁ _ h₁ => ?_
    refine Ends.bind (hlog u₁) fun _ u₂ _ h₂ => ?_
    refine Ends.bind (hrelse u₂) fun _ u₃ _ h₃ => ?_
    have hrest := logsAt_composes.trans (logsAt_composes.trans h₁ h₂) h₃
    exact logsAt_composes.trans (htu.mono (found_sub hnew)) hrest
  · exact Logs.then brelse_logs hsub fun _ t => logsAt_composes.refl t

/-- What a file block costs: `c` blocks, itself and index blocks. -/
def Costs (i n c : ℕ) (s : State) (a : ℕ) (t : State) : Prop :=
  ∃ D : Finset ℕ, a ∈ D ∧ D.card ≤ c ∧ LogsAt i n (bitmapAnd D) s t

/-- In front of the double-indirect blocks there is at most one index block. -/
theorem bmap_near_logs {bn : ℕ} (hbn : bn < smallBlocks) : Gives (bmap i bn s) (Costs i n 2 s) := by
  have hsmall : smallBlocks = NDIRECT + NINDIRECT := rfl
  unfold bmap
  by_cases hdirect : bn < NDIRECT
  · rw [if_pos hdirect]
    refine (addrEntry_logs (n := n)).mono fun a t hst => ⟨{a}, Finset.mem_singleton_self a, ?_, hst⟩
    rw [Finset.card_singleton]
    decide
  · rw [if_neg hdirect, if_pos (by omega)]
    refine Ends.bind (addrEntry_logs (n := n)) fun addr t _ hst => ?_
    refine (indexEntry_logs (n := n)).mono fun a u htu => ?_
    refine ⟨{addr, a}, by simp, Finset.card_le_two, ?_⟩
    refine logsAt_composes.trans (hst.mono (bitmapAnd_mono ?_)) htu
    exact Finset.singleton_subset_iff.mpr (Finset.mem_insert_self _ _)

theorem bmap_logs {bn : ℕ} : Gives (bmap i bn s) (Costs i n 3 s) := by
  have hsmall : smallBlocks = NDIRECT + NINDIRECT := rfl
  by_cases hbn : bn < smallBlocks
  · refine (bmap_near_logs (n := n) hbn).mono fun a t hcost => ?_
    obtain ⟨D, ha, hcard, hst⟩ := hcost
    exact ⟨D, ha, by omega, hst⟩
  · unfold bmap
    rw [if_neg (by omega), if_neg (by omega)]
    generalize NDINDIRECT = far
    by_cases hfar : bn - NDIRECT - NINDIRECT < far
    · rw [if_pos hfar]
      refine Ends.bind (addrEntry_logs (n := n)) fun root t _ hst => ?_
      refine Ends.bind (indexEntry_logs (n := n)) fun addr u _ htu => ?_
      refine (indexEntry_logs (n := n)).mono fun a w huw => ?_
      refine ⟨{root, addr, a}, by simp, Finset.card_le_three, ?_⟩
      have hst' := hst.mono (bitmapAnd_mono (E := {root, addr, a})
        (Finset.singleton_subset_iff.mpr (Finset.mem_insert_self _ _)))
      have htu' := htu.mono (bitmapAnd_mono (E := {root, addr, a}) fun b hb => by
        rcases Finset.mem_insert.mp hb with rfl | hb
        · exact Finset.mem_insert_self _ _
        · simp [Finset.mem_singleton.mp hb])
      have huw' := huw.mono (bitmapAnd_mono (E := {root, addr, a}) (Finset.subset_insert _ _))
      exact logsAt_composes.trans (logsAt_composes.trans hst' htu') huw'
    · rw [if_neg hfar]
      exact id

/-- The blocks of at most `c` file blocks are logged. -/
def CostsBlocks (i n c : ℕ) (s t : State) : Prop :=
  ∃ D : Finset ℕ, D.card ≤ c ∧ LogsAt i n (bitmapAnd D) s t

theorem CostsBlocks.trans {c d : ℕ} (h : CostsBlocks i n c s t) (h' : CostsBlocks i n d t u) :
    CostsBlocks i n (c + d) s u := by
  obtain ⟨D, hD, hst⟩ := h
  obtain ⟨E, hE, htu⟩ := h'
  refine ⟨D ∪ E, (Finset.card_union_le D E).trans (Nat.add_le_add hD hE), ?_⟩
  exact logsAt_composes.trans (hst.mono (bitmapAnd_mono Finset.subset_union_left))
    (htu.mono (bitmapAnd_mono Finset.subset_union_right))

theorem CostsBlocks.nothing : CostsBlocks i n 0 s s := ⟨∅, Nat.le_refl _, logsAt_composes.refl s⟩

theorem CostsBlocks.mono {c d : ℕ} (h : CostsBlocks i n c s t) (hcd : c ≤ d) :
    CostsBlocks i n d s t := by
  obtain ⟨D, hD, hst⟩ := h
  exact ⟨D, Nat.le_trans hD hcd, hst⟩

/-- Turns of the loop of writei that reach `r` file blocks, with `c` blocks for each. -/
theorem writeLoop_logs {src : Bytes} {off tot r c : ℕ}
    (hr : tot < m → m - tot + off % BSIZE ≤ r * BSIZE)
    (hcost : ∀ o u, off ≤ o → o < off + (m - tot) → Gives (bmap i (o / BSIZE) u) (Costs i n c u)) :
    Gives (writeLoop i m src fuel off tot s) fun _ t => CostsBlocks i n (c * r) s t := by
  induction fuel generalizing off tot r s with
  | zero => exact CostsBlocks.nothing.mono (Nat.zero_le _)
  | succ fuel ih =>
    unfold writeLoop
    by_cases hlt : tot < m
    · rw [if_pos hlt]
      have hmod := mod_BSIZE_lt off
      obtain ⟨r, rfl⟩ : ∃ q, r = q + 1 := by
        cases r with
        | zero =>
          have hzero := hr hlt
          omega
        | succ q => exact ⟨q, rfl⟩
      have hr' := hr hlt
      rw [Nat.succ_mul] at hr'
      refine Ends.bind (hcost off s (Nat.le_refl _) (by omega)) fun addr t _ hfirst => ?_
      obtain ⟨D, hmem, hcard, hst⟩ := hfirst
      set d := min (m - tot) (BSIZE - off % BSIZE) with hd
      have hlook : Logs i n (bitmapAnd D) (look fun s => (s.icache i).dev) := logs_look
      refine Ends.bind (hlook t) fun dev t₁ _ h₁ => ?_
      have hread : Logs i n (bitmapAnd D) (bread dev addr) := bread_logs
      refine Ends.bind (hread t₁) fun _ t₂ _ h₂ => ?_
      have hset : Logs i n (bitmapAnd D) (setData dev addr fun b =>
          splice b (off % BSIZE) src tot d) :=
        setData_logs
      refine Ends.bind (hset t₂) fun _ t₃ _ h₃ => ?_
      have hlog : Logs i n (bitmapAnd D) (logWrite addr) := logWrite_logs (bitmapAnd_self hmem)
      refine Ends.bind (hlog t₃) fun _ t₄ _ h₄ => ?_
      have hrelse : Logs i n (bitmapAnd D) (brelse dev addr) := brelse_logs
      refine Ends.bind (hrelse t₄) fun _ t₅ _ h₅ => ?_
      have hturn : CostsBlocks i n c s t₅ := by
        refine ⟨D, hcard, logsAt_composes.trans hst (logsAt_composes.trans h₁ ?_)⟩
        exact logsAt_composes.trans h₂ (logsAt_composes.trans h₃ (logsAt_composes.trans h₄ h₅))
      have hlater : tot + d < m → m - (tot + d) + (off + d) % BSIZE ≤ r * BSIZE := by
        intro hmore
        have hend : d = BSIZE - off % BSIZE := by omega
        have hfirst : (off + d) % BSIZE = 0 := by
          unfold BSIZE at hend ⊢
          omega
        omega
      refine (ih hlater fun o u hlo hhi => hcost o u (by omega) (by omega)).mono fun _ u hu => ?_
      exact (hturn.trans hu).mono (by rw [Nat.mul_succ]; omega)
    · rw [if_neg hlt]
      exact CostsBlocks.nothing.mono (Nat.zero_le _)

/-- writei logs its file blocks and the block of the inode. -/
theorem writei_logs {src : Bytes} {off r c : ℕ} (hr : m + off % BSIZE ≤ r * BSIZE)
    (hcost : ∀ o u, off ≤ o → o < off + m → Gives (bmap i (o / BSIZE) u) (Costs i n c u)) :
    Gives (writei i src off m s) fun _ t => ∃ D : Finset ℕ, D.card ≤ c * r ∧
      LogsAt i n (bitmapAnd (insert (IBLOCK n mkfsSuperblock) D)) s t := by
  have hnothing : ∀ u, ∃ D : Finset ℕ, D.card ≤ c * r ∧
      LogsAt i n (bitmapAnd (insert (IBLOCK n mkfsSuperblock) D)) u u :=
    fun u => ⟨∅, Nat.zero_le _, logsAt_composes.refl u⟩
  unfold writei
  refine Ends.bind (Q := fun _ t => s = t) rfl ?_
  rintro ip _ _ rfl
  by_cases hdev : ip.type = T_DEV
  · rw [if_pos hdev]
    refine Ends.bind (Q := fun _ t => s = t) rfl ?_
    rintro devsw _ _ rfl
    generalize (if short ip.major < 0 ∨ short ip.major ≥ NDEV then none else devsw ip.major) = entry
    cases entry with
    | none => exact hnothing s
    | some d => exact hnothing s
  · rw [if_neg hdev]
    by_cases hoff : off > ip.size ∨ (off + m) % 2 ^ 32 < off
    · rw [if_pos hoff]
      exact hnothing s
    · rw [if_neg hoff]
      generalize MAXFILE * BSIZE = last
      by_cases hlast : off + m > last
      · rw [if_pos hlast]
        exact hnothing s
      · rw [if_neg hlast]
        have hloop : Gives (writeLoop i m src m off 0 s) fun _ t => CostsBlocks i n (c * r) s t :=
          writeLoop_logs (fun _ => hr) hcost
        refine Ends.bind hloop fun _ t _ hst => ?_
        obtain ⟨D, hcard, hst⟩ := hst
        have hinode : IBLOCK n mkfsSuperblock ∈ bitmapAnd (insert (IBLOCK n mkfsSuperblock) D) :=
          bitmapAnd_self (Finset.mem_insert_self _ _)
        refine Ends.bind (Q := fun _ u => t = u) rfl ?_
        rintro size _ _ rfl
        have hsize : Logs i n (bitmapAnd (insert (IBLOCK n mkfsSuperblock) D))
            (if 0 < m ∧ off + m > size then do
              setSlot i fun ip => { ip with size := off + m }
              iupdate i
            else pure () : M Unit) := by
          refine Within.ite ?_ logs_pure
          exact Logs.bind (setSlot_logs fun _ => rfl) fun _ => iupdate_logs hinode
        refine Ends.bind (hsize t) fun _ u _ htu => ?_
        exact ⟨D, hcard, logsAt_composes.trans
          (hst.mono (bitmapAnd_mono (Finset.subset_insert _ _))) htu⟩

end FileBlocks

end NorthOS.Fs
