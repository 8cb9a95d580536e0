import NorthOS.Names
import NorthOS.PathWalk

/-!
Path lookup returns. While no inode is locked, two slots of the inode cache can be spared and
the entries of directories name inodes that have a type, namei does not panic and waits for
nothing, and it finds what the path names.
-/
namespace NorthOS.Fs

open LittleEndian Halting Comp

/-- The call neither panics nor waits forever, and it logs nothing. -/
def Returns {B : Type} (x : M B) (s : State) : Prop := ∃ r t, x s = .ok (r, t) ∧ Quiet s t

section Rules

variable {B C : Type} {x : M B} {f : B → M C} {s : State}

theorem returns_bind (h : Returns x s) (hf : ∀ r t, x s = .ok (r, t) → Returns (f r) t) :
    Returns (x >>= f) s := by
  obtain ⟨r, t, hx, hquiet⟩ := h
  obtain ⟨r', u, hu, hquiet'⟩ := hf r t hx
  exact ⟨r', u, bind_ok.mpr ⟨r, t, hx, hu⟩, quiet_composes.trans hquiet hquiet'⟩

theorem returns_pure (b : B) (s : State) :
    Returns (pure b : M B) s := ⟨b, s, rfl, quiet_composes.refl s⟩

theorem returns_setSlot (i : ℕ) (g : Inode → Inode) (s : State) : Returns (setSlot i g) s :=
  ⟨(), _, rfl, (setSlot_quiet s).of_ok rfl⟩

/-- What the state says is looked up. -/
theorem returns_look {g : State → B} (h : Returns (f (g s)) s) : Returns (look g >>= f) s := h

theorem returns_ensure {p : State → Bool} {e : Halt} {y : M C} (hp : p s = true) (h : Returns y s) :
    Returns (ensure p e >>= fun _ => y) s := by
  obtain ⟨r, t, ht, hquiet⟩ := h
  exact ⟨r, t, bind_ok.mpr ⟨(), s, ensure_of_true hp, ht⟩, hquiet⟩

/-- A return and what is known of all returns. -/
theorem Returns.gives {Q : B → State → Prop} (h : Returns x s) (hQ : Gives (x s) Q) :
    ∃ r t, x s = .ok (r, t) ∧ Quiet s t ∧ Q r t := by
  obtain ⟨r, t, hx, hquiet⟩ := h
  exact ⟨r, t, hx, hquiet, hQ.of_ok hx⟩

end Rules

/-- Directories have whole entries, and these name inodes with a type. -/
structure Sensible (A : Files) : Prop where
  whole : ∀ n, (A n).type = T_DIR → direntSize ∣ (A n).size
  live : ∀ n k, (A n).type = T_DIR → k < (A n).entries → (A n).inumAt k ≠ 0 → (A ((A n).inumAt k)).type ≠ 0
  root : (A ROOTINO).type ≠ 0

variable {near : Prop} {i n : ℕ} {s t : State} {A : Files} {σ : Slots} {E L : Multiset ℕ}
    {name path : Name}

section Inodes

/-- A slot is free while not all have references. -/
theorem Good.iget_returns (h : Good near s A σ E L) (hcard : (E + L).toFinset.card < NINODE)
    (n : ℕ) : Returns (Fs.iget ROOTDEV n) s := by
  unfold Fs.iget
  refine returns_look ?_
  cases hfind : findSlot s.icache ROOTDEV n with
  | inr i => exact returns_bind (returns_setSlot _ _ _) fun _ t _ => returns_pure _ t
  | inl free =>
    cases free with
    | some i => exact returns_bind (returns_setSlot _ _ _) fun _ t _ => returns_pure _ t
    | none =>
      exfalso
      unfold findSlot at hfind
      split at hfind
      · cases hfind
      · have hnone := List.find?_eq_none.mp (Sum.inl.inj hfind)
        obtain ⟨v, _, _, rfl⟩ := h.shows
        have hall : Finset.range NINODE ⊆ (E + L).toFinset := by
          intro i hi
          have hi := Finset.mem_range.mp hi
          have hused : (s.icache i).ref ≠ 0 := fun hzero =>
            hnone i (List.mem_range.mpr hi) (decide_eq_true hzero)
          have hcount : (s.icache i).ref = (E + L).count i := h.refs i hi
          rw [Multiset.mem_toFinset]
          exact Multiset.count_pos.mp (by omega)
        have hle := Finset.card_le_card hall
        rw [Finset.card_range] at hle
        omega

theorem Good.ilock_returns (h : Good near s A σ E L) (hi : i ∈ E + L) (hfree : s.locks i = false)
    (htype : (A (σ i).inum).type ≠ 0) : Returns (Fs.ilock i) s := by
  have hpos := h.pos hi
  have hlt := h.lt hi
  obtain ⟨v, hv, rfl, rfl⟩ := h.shows
  cases hvalid : (s.icache i).valid with
  | true =>
    have hrun := ilock_valid hpos hfree hvalid
    exact ⟨(), _, hrun, (ilock_quiet s).of_ok hrun⟩
  | false =>
    obtain ⟨hdev, _, hmax⟩ := hv.slots i hlt hpos
    have htype : (v (s.icache i).inum).type ≠ 0 := htype
    have hload := ilock_load hpos hfree hvalid hv.quiet (hv.iblock_lt hmax)
    rw [hdev, hv.sb, hv.load_type hlt hpos hvalid, if_neg htype] at hload
    exact ⟨(), _, hload, (ilock_quiet s).of_ok hload⟩

theorem iunlock_returns (hlocked : s.locks i = true) (hpos : 0 < s.refs i) :
    Returns (Fs.iunlock i) s := by
  have htest : ((s.icache i).locked && decide (0 < (s.icache i).ref)) = true :=
    Bool.and_eq_true_iff.mpr ⟨hlocked, decide_eq_true hpos⟩
  exact returns_ensure htest (returns_setSlot _ _ _)

/-- A call gives a reference back without freeing the inode. -/
theorem Good.putBack_returns (h : Good near s A σ E (i ::ₘ L)) (hfree : s.locks i = false) :
    Returns (Fs.iput i) s := by
  have hmem : i ∈ E + i ::ₘ L := mem_held
  have hi := h.lt hmem
  have hcount : (σ i).ref = (E + L).count i + 1 := by
    rw [h.refs i hi, Multiset.add_cons, Multiset.count_cons_self]
  have hkept : ¬ ((s.icache i).valid = true ∧ (s.icache i).nlink = 0 ∧ (s.icache i).ref = 1) := by
    intro hc
    obtain ⟨hvalid, hnlink, hone⟩ := (h.shows.free_iff hi).mp hc
    obtain ⟨j, hj, hat⟩ := h.linked _ (h.shows.typed hi (h.pos hmem) hvalid) hnlink
    have hji := h.shows.unique hat.slot hi hat.ref (h.pos hmem) hat.inum
    have hpos := Multiset.count_pos.mpr (Multiset.mem_add.mpr (Or.inl (hji ▸ hj)) : i ∈ E + L)
    omega
  have hunlocked : (!(s.icache i).locked) = true := by
    rw [show (s.icache i).locked = false from hfree]
    rfl
  unfold Fs.iput
  refine returns_ensure hunlocked ?_
  refine returns_bind (returns_setSlot _ _ _) fun _ t hset => ?_
  have ht := update_ok.mp hset
  refine returns_look ?_
  rw [← ht, setSlot_self]
  rw [if_neg hkept]
  refine returns_bind (returns_pure _ _) fun _ u _ => ?_
  exact returns_bind (returns_setSlot _ _ _) fun _ w _ => returns_setSlot _ _ _

end Inodes

section Directories

theorem Shows.readDirent_returns (h : Shows near s A σ) (hat : At σ i n) (hdir : (A n).type = T_DIR)
    (hsize : (A n).size ≤ nearBytes) (hwhole : direntSize ∣ (A n).size) {k : ℕ}
    (hk : direntSize * k < (A n).size) : Returns (Fs.readDirent i (direntSize * k)) s := by
  have hdev : (A n).type ≠ T_DEV := by
    rw [hdir]
    decide
  have hword : nearBytes + direntSize < 2 ^ 32 := by decide
  obtain ⟨d, hread, _⟩ := h.readi hat hdev (m := direntSize) (Nat.le_of_lt hk) (by omega) (by omega)
  obtain ⟨c, hc⟩ := hwhole
  have hrest : direntSize * (k + 1) ≤ (A n).size := by
    rw [hc]
    rw [hc] at hk
    exact Nat.mul_le_mul_left _ (Nat.lt_of_mul_lt_mul_left hk)
  rw [Nat.mul_succ] at hrest
  have hmin : min direntSize ((A n).size - direntSize * k) = direntSize :=
    Nat.min_eq_left (by omega)
  rw [hmin] at hread
  have hrun : Fs.readDirent i (direntSize * k) s = .ok (d, s) :=
    bind_ok.mpr ⟨_, s, hread, bind_ok.mpr ⟨(), s, ensure_of_true (decide_eq_true rfl), rfl⟩⟩
  exact ⟨d, s, hrun, quiet_composes.refl s⟩

theorem Good.lookupLoop_returns (h : Good near s A σ E L) (hat : At σ i n)
    (hdir : (A n).type = T_DIR) (hsize : (A n).size ≤ nearBytes) (hwhole : direntSize ∣ (A n).size)
    (hcard : (E + L).toFinset.card < NINODE) {fuel k : ℕ} :
    Returns (Fs.lookupLoop i name fuel (direntSize * k)) s := by
  obtain ⟨hdev, _, _, _, _, _, hcached⟩ := h.shows.fields hat
  induction fuel generalizing k with
  | zero => exact returns_pure _ s
  | succ fuel ih =>
    unfold Fs.lookupLoop
    refine returns_look ?_
    by_cases hlt : direntSize * k < (s.icache i).size
    · rw [if_pos hlt]
      rw [hcached] at hlt
      refine returns_bind (h.shows.readDirent_returns hat hdir hsize hwhole hlt)
        fun de u hread => ?_
      obtain ⟨rfl, _⟩ := (h.shows.readDirent hat hdir hsize hlt).of_ok hread
      split
      · rw [hdev]
        exact returns_bind (h.iget_returns hcard _) fun _ v _ => returns_pure _ v
      · exact ih (k := k + 1)
    · rw [if_neg hlt]
      exact returns_pure _ s

theorem Good.dirlookup_returns (h : Good near s A σ E L) (hat : At σ i n)
    (hdir : (A n).type = T_DIR) (hsize : (A n).size ≤ nearBytes) (hwhole : direntSize ∣ (A n).size)
    (hcard : (E + L).toFinset.card < NINODE) : Returns (Fs.dirlookup i name) s := by
  obtain ⟨_, _, htype, _, _, _, _⟩ := h.shows.fields hat
  unfold Fs.dirlookup
  refine returns_ensure (decide_eq_true (htype.trans hdir)) (returns_look ?_)
  exact h.lookupLoop_returns hat hdir hsize hwhole hcard (k := 0)

end Directories

section Paths

/-- No slot of the cache is locked. -/
def Idle (s : State) : Prop := ∀ j, j < NINODE → s.locks j = false

theorem refs_eq (h : Good near s A σ E L) : s.refs i = (σ i).ref := by
  obtain ⟨v, _, _, rfl⟩ := h.shows
  rfl

theorem iunlockput_locks (hpos : 0 < s.refs i) : Gives (Fs.iunlockput i s) fun _ t =>
    t.locks = Function.update s.locks i false := by
  unfold Fs.iunlockput
  refine Ends.bind (iunlock_uses s) fun _ t _ hunlock => ?_
  obtain ⟨hrefs, hlocks⟩ := hunlock
  refine (iput_moves t (by rwa [hrefs])).mono fun _ u hput => ?_
  rw [hput.locks, hlocks]

theorem Good.unlockPutBack_returns (h : Good near s A σ E (i ::ₘ L)) (hlocked : s.locks i = true) :
    Returns (Fs.iunlockput i) s := by
  have hpos : 0 < s.refs i := by
    rw [refs_eq h]
    exact h.pos mem_held
  unfold Fs.iunlockput
  refine returns_bind (iunlock_returns hlocked hpos) fun _ t hrun => ?_
  obtain ⟨_, hlocks⟩ := (iunlock_uses s).of_ok hrun
  have hgood := (h.iunlock.of_ok hrun).good
  refine hgood.putBack_returns ?_
  rw [hlocks, Function.update_self]

/-- What was locked alone is free again. -/
theorem Idle.again (h : Idle s) {x : Bool}
    (hlocks : t.locks = Function.update (Function.update s.locks i x) i false) :
    Idle t := by
  intro j hj
  rw [hlocks, Function.update_idem]
  by_cases hji : j = i
  · rw [hji, Function.update_self]
  · rw [Function.update_of_ne hji]
    exact h j hj

theorem card_held_le : (E + i ::ₘ L).toFinset.card ≤ (E + L).toFinset.card + 1 := by
  rw [Multiset.add_cons, Multiset.toFinset_cons]
  exact Finset.card_insert_le _ _

/-- The walk of namex from an inode that has a type. -/
theorem Good.namexLoop_returns {nameiparent : Bool} {fuel : ℕ} (h : Good near s A σ E (i ::ₘ L))
    (hidle : Idle s)
    (hcard : (E + L).toFinset.card + 2 ≤ NINODE) (hA : Sensible A) (htype : (A (σ i).inum).type ≠ 0)
    (hroom : Roomy A (visited A nameiparent fuel (σ i).inum path)) :
    Returns (Fs.namexLoop nameiparent fuel i path name) s := by
  have hbelow : (E + i ::ₘ L).toFinset.card < NINODE := Nat.lt_of_le_of_lt card_held_le (by omega)
  induction fuel generalizing i s σ path name with
  | zero => exact returns_pure _ s
  | succ fuel ih =>
    have hi := h.lt (mem_held (i := i) (E := E) (L := L))
    unfold Fs.namexLoop
    unfold visited at hroom
    cases hskip : skipelem path with
    | none =>
      cases nameiparent with
      | true => exact returns_bind (h.putBack_returns (hidle i hi)) fun _ t _ => returns_pure _ t
      | false => exact returns_pure _ s
    | some q =>
      obtain ⟨elem, rest⟩ := q
      rw [hskip] at hroom
      dsimp only at hroom ⊢
      refine returns_bind (h.ilock_returns mem_held (hidle i hi) htype) fun _ t hrun => ?_
      obtain ⟨σ₁, hlock, hat, _⟩ := (h.ilock mem_held).of_ok hrun
      obtain ⟨_, _, _, hlocks⟩ := (ilock_uses s).of_ok hrun
      have hlocked : t.locks i = true := by
        rw [hlocks, Function.update_self]
      obtain ⟨_, _, hcached, _⟩ := hlock.good.shows.fields hat
      refine returns_look ?_
      rw [hcached]
      by_cases hdir : (A (σ i).inum).type ≠ T_DIR
      · rw [if_pos hdir]
        exact returns_bind (hlock.good.unlockPutBack_returns hlocked) fun _ u _ => returns_pure _ u
      · rw [if_neg hdir]
        rw [if_neg hdir] at hroom
        rw [not_not] at hdir
        by_cases hparent : nameiparent = true ∧ rest = []
        · rw [if_pos hparent]
          have hpos : 0 < t.refs i := by
            rw [refs_eq hlock.good]
            exact hlock.good.pos mem_held
          exact returns_bind (iunlock_returns hlocked hpos) fun _ u _ => returns_pure _ u
        · rw [if_neg hparent]
          rw [if_neg hparent] at hroom
          have hsmall := Nat.le_of_lt (hroom _ (List.mem_cons_self ..))
          refine returns_bind (hlock.good.dirlookup_returns hat hdir hsmall
            (hA.whole _ hdir) hbelow) fun r u hfound => ?_
          have hulocks := ((dirlookup_moves elem t).of_ok hfound).locks
          have hulocked : u.locks i = true := by rw [hulocks, hlocked]
          obtain ⟨_, hfound⟩ := (hlock.good.dirlookup hat fun _ => hsmall).of_ok hfound
          cases hfind : (A (σ i).inum).find elem with
          | none =>
            rw [hfind] at hfound
            obtain ⟨rfl, hdoes⟩ := hfound
            exact returns_bind (hdoes.good.unlockPutBack_returns hulocked) fun _ w _ =>
              returns_pure _ w
          | some k =>
            rw [hfind] at hfound hroom
            obtain ⟨next, σ₂, rfl, hdoes, hnext⟩ := hfound
            obtain ⟨hk, hne⟩ := Node.find_some hfind
            have hgood := hdoes.good
            rw [Multiset.cons_swap] at hgood
            have hupos : 0 < u.refs i := by
              rw [refs_eq hgood]
              exact hgood.pos mem_held
            refine returns_bind (hgood.unlockPutBack_returns hulocked) fun _ w hput => ?_
            have hwlocks := (iunlockput_locks hupos).of_ok hput
            rw [hulocks, hlocks] at hwlocks
            obtain ⟨σ₃, hput⟩ := hgood.unlockPutBack.of_ok hput
            have hnext' : (σ₃ next).inum = (A (σ i).inum).inumAt k :=
              (hput.keeps next mem_held).1.trans hnext
            refine ih hput.good (hidle.again hwlocks) ?_ ?_ ?_
            · rw [hnext']
              exact hA.live _ k hdir hk hne
            · rw [hnext']
              exact fun m hm => hroom m (List.mem_cons_of_mem _ hm)
            · exact Nat.lt_of_le_of_lt card_held_le (by omega)

/-- namei finds what the path names. -/
theorem Good.namei_returns {cwd : ℕ} (h : Good near s A σ E 0) (hcwd : cwd ∈ E) (hidle : Idle s)
    (hcard : E.toFinset.card + 2 ≤ NINODE) (hA : Sensible A) (htype : (A (σ cwd).inum).type ≠ 0)
    (hroom : Roomy A (looked A false (σ cwd).inum path)) :
    ∃ r t σ', Fs.namei cwd path s = .ok (r, t) ∧ Quiet s t ∧ Idle t ∧
      Does near (E + 0) ∅ s A σ t A σ' E (r.elim 0 (· ::ₘ 0)) ∧
        resolve A (σ cwd).inum path = r.map fun i => (σ' i).inum := by
  have hmem : cwd ∈ E + 0 := Multiset.mem_add.mpr (Or.inl hcwd)
  have hcard' : (E + 0).toFinset.card + 2 ≤ NINODE := by rwa [Multiset.add_zero]
  have hstart : Returns (if path.head? = some slash then Fs.iget ROOTDEV ROOTINO
      else do
        Fs.idup cwd
        pure cwd : M ℕ) s := by
    split
    · exact h.iget_returns (by omega) _
    · exact returns_bind (returns_setSlot _ _ _) fun _ t _ => returns_pure _ t
  have hgives : Gives ((if path.head? = some slash then Fs.iget ROOTDEV ROOTINO
      else do
        Fs.idup cwd
        pure cwd : M ℕ) s) fun i t => (∃ σ', Does near (E + 0) ∅ s A σ t A σ' E (i ::ₘ 0) ∧
          (σ' i).inum = origin (σ cwd).inum path) ∧ t.locks = s.locks := by
    unfold origin
    split
    · refine ((h.iget (by decide) (by decide)).and (iget_moves ROOTDEV ROOTINO s)).mono
        fun i t hget => ?_
      exact ⟨hget.1, hget.2.locks⟩
    · refine Ends.bind ((h.idup hmem).and (idup_moves s)) fun _ t _ hdup => ?_
      exact ⟨hdup.1, hdup.2.locks⟩
  have hreturns : Returns (Fs.namei cwd path) s := by
    unfold Fs.namei Fs.namex
    refine returns_bind (returns_bind hstart fun i t hrun => ?_) fun r t _ => returns_pure _ t
    obtain ⟨⟨σ₁, hget, hinum⟩, hlocks⟩ := hgives.of_ok hrun
    rw [looked, ← hinum] at hroom
    refine hget.good.namexLoop_returns (fun j hj => ?_) hcard' hA ?_ hroom
    · rw [hlocks]
      exact hidle j hj
    · rw [hinum, origin]
      split
      · exact hA.root
      · exact htype
  obtain ⟨r, t, hrun, hquiet, ⟨σ', hdoes, hresolve⟩, hmoves⟩ :=
    hreturns.gives ((h.namei hcwd hroom).and (namei_moves cwd path s))
  refine ⟨r, t, σ', hrun, hquiet, fun j hj => ?_, hdoes, hresolve⟩
  rw [hmoves.locks]
  exact hidle j hj

end Paths

end NorthOS.Fs
