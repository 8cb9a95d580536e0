import NorthOS.CacheBounds
import NorthOS.PathElements

/-!
namex as a fold. Each element of a path is one lookup in a directory, which is locked for it,
and takes the reference to the directory in exchange for one to what it finds. Of references
and locks a walk leaves the one reference that it returns.
-/
namespace NorthOS.Fs

open LittleEndian Halting Comp

/-- Where namex begins, with a reference: the root, or the working directory. -/
def pathStart (cwd : ℕ) (path : Name) : M ℕ :=
  if path.head? = some slash then iget ROOTDEV ROOTINO
  else do
    idup cwd
    pure cwd

/-- dirlookup in a directory that is locked for it; what is not a directory has no entries. -/
def lookup (dp : ℕ) (name : Name) : M (Option ℕ) := do
  ilock dp
  let type ← look fun s => (s.icache dp).type
  if type ≠ T_DIR then do
    iunlockput dp
    pure none
  else do
    let next ← dirlookup dp name
    iunlockput dp
    pure (next.map Prod.fst)

/-- The fold of dirlookup over names. -/
def lookups (ip : ℕ) (names : List Name) : M (Option ℕ) :=
  (names.foldlM (fun dp name => OptionT.mk (lookup dp name)) ip).run

/-- What nameiparent does with the last directory. -/
def stopAt (dp : ℕ) (name : Name) : M (Option (ℕ × Name)) := do
  ilock dp
  let type ← look fun s => (s.icache dp).type
  if type ≠ T_DIR then do
    iunlockput dp
    pure none
  else do
    iunlock dp
    pure (some (dp, name))

variable {path rest elem name : Name} {elems : List Name} {ip fuel : ℕ}

section Folds

theorem lookups_cons (ip : ℕ) (name : Name) (names : List Name) :
    lookups ip (name :: names) = (do
      match ← lookup ip name with
      | none => pure none
      | some next => lookups next names) := by
  show (lookup ip name >>= _) = _
  refine congrArg _ (funext fun next => ?_)
  cases next with
  | none => rfl
  | some next => rfl

/-- One turn of the loop is one lookup. -/
theorem namexLoop_step {nameiparent : Bool} (hskip : skipelem path = some (elem, rest))
    (hgo : ¬ (nameiparent ∧ rest = [])) :
    namexLoop nameiparent (fuel + 1) ip path name = (do
      match ← lookup ip elem with
      | none => pure none
      | some next => namexLoop nameiparent fuel next rest elem) := by
  rw [namexLoop, hskip]
  dsimp only
  unfold lookup
  simp only [bind_assoc]
  refine congrArg _ (funext fun _ => congrArg _ (funext fun type => ?_))
  split
  · rw [bind_assoc]
    rfl
  · rw [bind_assoc]
    refine congrArg _ (funext fun next => ?_)
    cases next with
    | none =>
      rw [bind_assoc]
      rfl
    | some q =>
      rw [bind_assoc]
      rfl

theorem namexLoop_stop (hskip : skipelem path = some (elem, [])) :
    namexLoop true (fuel + 1) ip path name = stopAt ip elem := by
  rw [namexLoop, hskip]
  rfl

/-- Without `nameiparent` the loop is the fold over all elements. -/
theorem namexLoop_eq (hfuel : path.length < fuel) :
    (do let r ← namexLoop false fuel ip path name; pure (r.map Prod.fst)) =
      lookups ip (components path) := by
  induction fuel generalizing ip path name with
  | zero => omega
  | succ fuel ih =>
    rw [components_skipelem]
    cases hskip : skipelem path with
    | none =>
      rw [namexLoop, hskip]
      rfl
    | some q =>
      obtain ⟨elem, rest⟩ := q
      have hshort := skipelem_lt hskip
      rw [namexLoop_step hskip (by simp), bind_assoc]
      dsimp only
      rw [lookups_cons]
      refine congrArg _ (funext fun next => ?_)
      cases next with
      | none => rfl
      | some next => exact ih (by omega)

theorem namexLoop_none (h : components path = []) :
    namexLoop true (fuel + 1) ip path name = (do
      iput ip
      pure none) := by
  rw [components_skipelem] at h
  rw [namexLoop]
  cases hskip : skipelem path with
  | none => rfl
  | some q =>
    rw [hskip] at h
    cases h

/-- With `nameiparent` the last element is left over. -/
theorem namexLoop_parent (hfuel : path.length < fuel) (h : components path = elems ++ [elem]) :
    namexLoop true fuel ip path name = (do
      match ← lookups ip elems with
      | none => pure none
      | some dp => stopAt dp elem) := by
  induction fuel generalizing ip path name elems with
  | zero => omega
  | succ fuel ih =>
    rw [components_skipelem] at h
    cases hskip : skipelem path with
    | none =>
      rw [hskip] at h
      simp at h
    | some q =>
      obtain ⟨first, rest⟩ := q
      rw [hskip] at h
      dsimp only at h
      have hshort := skipelem_lt hskip
      cases elems with
      | nil =>
        obtain ⟨rfl, hnil⟩ := List.cons.inj h
        obtain rfl := (skipelem_rest hskip).mp hnil
        exact namexLoop_stop hskip
      | cons second elems =>
        obtain ⟨rfl, hmore⟩ := List.cons.inj h
        have hgo : ¬ (true = true ∧ rest = []) := by
          rintro ⟨_, rfl⟩
          rw [components_nil] at hmore
          simp at hmore
        rw [namexLoop_step hskip hgo, lookups_cons, bind_assoc]
        refine congrArg _ (funext fun next => ?_)
        cases next with
        | none => rfl
        | some next => exact ih (by omega) hmore

theorem namex_eq (cwd : ℕ) (path : Name) (nameiparent : Bool) :
    namex cwd path nameiparent = (do
      let ip ← pathStart cwd path
      namexLoop nameiparent (path.length + 1) ip path []) := rfl

theorem namei_eq (cwd : ℕ) (path : Name) :
    namei cwd path = (do
      let ip ← pathStart cwd path
      lookups ip (components path)) := by
  unfold namei
  rw [namex_eq, bind_assoc]
  exact congrArg _ (funext fun _ => namexLoop_eq (Nat.lt_succ_self _))

theorem nameiparent_eq (cwd : ℕ) (h : components path = elems ++ [elem]) :
    nameiparent cwd path = (do
      let ip ← pathStart cwd path
      match ← lookups ip elems with
      | none => pure none
      | some dp => stopAt dp elem) := by
  unfold nameiparent
  rw [namex_eq]
  exact congrArg _ (funext fun _ => namexLoop_parent (Nat.lt_succ_self _) h)

theorem nameiparent_none (cwd : ℕ) (h : components path = []) :
    nameiparent cwd path = (do
      let ip ← pathStart cwd path
      iput ip
      pure none) := by
  unfold nameiparent
  rw [namex_eq]
  exact congrArg _ (funext fun _ => namexLoop_none h)

end Folds

section Neutral

def State.refs (s : State) (i : ℕ) : ℕ := (s.icache i).ref

def State.locks (s : State) (i : ℕ) : Bool := (s.icache i).locked

/-- No reference is taken or given back, and no inode locked or unlocked. -/
structure SameUse (s t : State) : Prop where
  refs : t.refs = s.refs
  locks : t.locks = s.locks

theorem use_composes : Composes SameUse :=
  ⟨fun _ => ⟨rfl, rfl⟩, fun h h' => ⟨h'.refs.trans h.refs, h'.locks.trans h.locks⟩⟩

abbrev Neutral {B : Type} (x : M B) : Prop := Within (fun _ => False) SameUse x

variable {i k : ℕ}

theorem neutral_of_frame {B : Type} {x : M B} (h : Within Fault Frame x) : Neutral x := by
  refine h.mono (fun s t hf => ⟨?_, ?_⟩) fun _ => False.elim
  · funext j
    unfold State.refs
    rw [hf.icache]
  · funext j
    unfold State.locks
    rw [hf.icache]

theorem refs_setSlot (s : State) (i : ℕ) (f : Inode → Inode) :
    (s.setSlot i f).refs = Function.update s.refs i (f (s.icache i)).ref := by
  funext j
  show (Function.update s.icache i (f (s.icache i)) j).ref = _
  by_cases hj : j = i
  · rw [hj, Function.update_self, Function.update_self]
  · rw [Function.update_of_ne hj, Function.update_of_ne hj]
    rfl

theorem locks_setSlot (s : State) (i : ℕ) (f : Inode → Inode) :
    (s.setSlot i f).locks = Function.update s.locks i (f (s.icache i)).locked := by
  funext j
  show (Function.update s.icache i (f (s.icache i)) j).locked = _
  by_cases hj : j = i
  · rw [hj, Function.update_self, Function.update_self]
  · rw [Function.update_of_ne hj, Function.update_of_ne hj]
    rfl

theorem setSlot_sameUse {s : State} {f : Inode → Inode} (href : ∀ ip, (f ip).ref = ip.ref)
    (hlocked : ∀ ip, (f ip).locked = ip.locked) : SameUse s (s.setSlot i f) := by
  constructor
  · rw [refs_setSlot, href]
    exact Function.update_eq_self i s.refs
  · rw [locks_setSlot, hlocked]
    exact Function.update_eq_self i s.locks

theorem setSlot_neutral {f : Inode → Inode} (href : ∀ ip, (f ip).ref = ip.ref)
    (hlocked : ∀ ip, (f ip).locked = ip.locked) : Neutral (setSlot i f) :=
  within_update fun _ => setSlot_sameUse href hlocked

theorem look_neutral {B : Type} {f : State → B} : Neutral (look f : M B) := within_look use_composes

theorem pure_neutral {B : Type} {b : B} : Neutral (pure b : M B) := within_pure use_composes

theorem ensure_neutral {p : State → Bool} {e : Halt} : Neutral (ensure p e : M Unit) :=
  within_ensure use_composes id

theorem getAddr_neutral : Neutral (getAddr i k) :=
  ensure_neutral.bind use_composes fun _ => look_neutral

theorem setAddr_neutral {a : ℕ} : Neutral (setAddr i k a) := by
  refine ensure_neutral.bind use_composes fun _ => within_update fun s => ?_
  split
  · exact setSlot_sameUse (fun _ => rfl) fun _ => rfl
  · split
    · exact setSlot_sameUse (fun _ => rfl) fun _ => rfl
    · exact ⟨rfl, rfl⟩

theorem indexEntry_neutral {addr : ℕ} : Neutral (indexEntry i addr k) := by
  unfold indexEntry
  refine look_neutral.bind use_composes fun dev => ?_
  refine (neutral_of_frame bread_within).bind use_composes fun a => Within.ite ?_ ?_
  · refine look_neutral.bind use_composes fun dev' => ?_
    refine (neutral_of_frame balloc_within).bind use_composes fun addr => ?_
    refine (neutral_of_frame setData_within).bind use_composes fun _ => ?_
    refine (neutral_of_frame logWrite_within).bind use_composes fun _ => ?_
    exact (neutral_of_frame brelse_within).bind use_composes fun _ => pure_neutral
  · exact (neutral_of_frame brelse_within).bind use_composes fun _ => pure_neutral

theorem addrEntry_neutral : Neutral (addrEntry i k) := by
  unfold addrEntry
  refine getAddr_neutral.bind use_composes fun addr => Within.ite ?_ pure_neutral
  refine look_neutral.bind use_composes fun dev => ?_
  refine (neutral_of_frame balloc_within).bind use_composes fun addr => ?_
  exact setAddr_neutral.bind use_composes fun _ => pure_neutral

theorem bmap_neutral {bn : ℕ} : Neutral (bmap i bn) := by
  unfold bmap
  refine addrEntry_neutral.ite (Within.ite ?_ (Within.ite ?_ (within_halt id)))
  · exact addrEntry_neutral.bind use_composes fun _ => indexEntry_neutral
  · refine addrEntry_neutral.bind use_composes fun _ => ?_
    exact indexEntry_neutral.bind use_composes fun _ => indexEntry_neutral

theorem freeEntries_neutral {inner : ℕ → M Unit} (hinner : ∀ a, Neutral (inner a)) {addr : ℕ} :
    Neutral (freeEntries i inner addr) := by
  unfold freeEntries
  generalize NINDIRECT = n
  refine look_neutral.bind use_composes fun dev => ?_
  refine (neutral_of_frame bread_within).bind use_composes fun _ => ?_
  refine (within_forBelow use_composes fun j _ => ?_).bind use_composes fun _ =>
    neutral_of_frame brelse_within
  refine look_neutral.bind use_composes fun a => pure_neutral.ite ?_
  refine (hinner _).bind use_composes fun _ => ?_
  exact look_neutral.bind use_composes fun dev' => neutral_of_frame bfree_within

theorem freeAddr_neutral {inner : ℕ → M Unit} (hinner : ∀ a, Neutral (inner a)) :
    Neutral (freeAddr i k inner) := by
  unfold freeAddr
  refine getAddr_neutral.bind use_composes fun addr => pure_neutral.ite ?_
  refine (hinner _).bind use_composes fun _ => ?_
  refine look_neutral.bind use_composes fun dev => ?_
  refine getAddr_neutral.bind use_composes fun addr => ?_
  exact (neutral_of_frame bfree_within).bind use_composes fun _ => setAddr_neutral

theorem iupdate_neutral : Neutral (iupdate i) := by
  unfold iupdate
  refine ensure_neutral.bind use_composes fun _ => ?_
  refine look_neutral.bind use_composes fun ip => ?_
  refine look_neutral.bind use_composes fun sb => ?_
  refine (neutral_of_frame bread_within).bind use_composes fun _ => ?_
  refine (neutral_of_frame setData_within).bind use_composes fun _ => ?_
  refine (neutral_of_frame logWrite_within).bind use_composes fun _ => ?_
  exact neutral_of_frame brelse_within

theorem itrunc_neutral : Neutral (itrunc i) := by
  have hleaf : ∀ a, Neutral (freeEntries i (fun _ => pure ()) a) :=
    fun _ => freeEntries_neutral fun _ => pure_neutral
  have hsize : Neutral (setSlot i fun ip => { ip with size := 0 }) :=
    setSlot_neutral (fun _ => rfl) fun _ => rfl
  unfold itrunc
  refine (within_forBelow use_composes fun k _ => freeAddr_neutral fun _ => pure_neutral).bind
    use_composes fun _ => ?_
  refine (freeAddr_neutral hleaf).bind use_composes fun _ => ?_
  refine (freeAddr_neutral fun _ => freeEntries_neutral hleaf).bind use_composes fun _ => ?_
  exact hsize.bind use_composes fun _ => iupdate_neutral

theorem readLoop_neutral {n off tot : ℕ} {dst : Bytes} :
    Neutral (readLoop i n fuel off tot dst) := by
  induction fuel generalizing off tot dst with
  | zero => exact pure_neutral
  | succ fuel ih =>
    unfold readLoop
    refine Within.ite ?_ pure_neutral
    refine bmap_neutral.bind use_composes fun addr => ?_
    refine look_neutral.bind use_composes fun dev => ?_
    refine (neutral_of_frame bread_within).bind use_composes fun data => ?_
    exact (neutral_of_frame brelse_within).bind use_composes fun _ => ih

theorem readi_neutral {off n : ℕ} : Neutral (readi i off n) := by
  unfold readi
  refine look_neutral.bind use_composes fun ip => Within.ite ?_ (pure_neutral.ite ?_)
  · refine look_neutral.bind use_composes fun devsw => ?_
    split
    · exact pure_neutral
    · exact pure_neutral
  · exact readLoop_neutral.bind use_composes fun _ => pure_neutral

theorem readDirent_neutral {off : ℕ} : Neutral (readDirent i off) := by
  refine readi_neutral.bind use_composes fun r => ?_
  exact ensure_neutral.bind use_composes fun _ => pure_neutral

end Neutral

section Moves

/-- What a call took over and what it has in the end: a reference to a slot, or none. -/
def count (r : Option ℕ) (k : ℕ) : ℕ := if r = some k then 1 else 0

/-- The reference `given` has gone, `taken` has come, and the locks are as they were. -/
structure Moves (s t : State) (given taken : Option ℕ) : Prop where
  refs : ∀ k, t.refs k + count given k = s.refs k + count taken k
  locks : t.locks = s.locks

variable {s t u : State} {i : ℕ} {r : Option ℕ}

theorem Moves.trans {given taken : Option ℕ} (h : Moves s t given r) (h' : Moves t u r taken) :
    Moves s u given taken := by
  refine ⟨fun k => ?_, h'.locks.trans h.locks⟩
  have h₁ := h.refs k
  have h₂ := h'.refs k
  omega

theorem count_self (i : ℕ) : count (some i) i = 1 := if_pos rfl

theorem count_other {k : ℕ} (h : k ≠ i) : count (some i) k = 0 :=
  if_neg fun he => h (Option.some.inj he).symm

theorem count_none (k : ℕ) : count none k = 0 := if_neg nofun

/-- One more reference to slot `i`. -/
theorem Moves.take (href : t.refs = Function.update s.refs i (s.refs i + 1))
    (hlocks : t.locks = s.locks) :
    Moves s t none (some i) := by
  refine ⟨fun k => ?_, hlocks⟩
  rw [href, count_none]
  by_cases hk : k = i
  · rw [hk, Function.update_self, count_self]
  · rw [Function.update_of_ne hk, count_other hk]

theorem Moves.give (hpos : 0 < s.refs i) (href : t.refs = Function.update s.refs i (s.refs i - 1))
    (hlocks : t.locks = s.locks) : Moves s t (some i) none := by
  refine ⟨fun k => ?_, hlocks⟩
  rw [href, count_none]
  by_cases hk : k = i
  · rw [hk, Function.update_self, count_self]
    omega
  · rw [Function.update_of_ne hk, count_other hk]

theorem idup_moves (s : State) : Gives (idup i s) fun _ t => Moves s t none (some i) := by
  unfold idup setSlot
  refine ends_update.mpr ?_
  refine Moves.take (refs_setSlot s i _) ?_
  rw [locks_setSlot]
  exact Function.update_eq_self i s.locks

/-- The slot that iget finds is in use, or gets its first reference. -/
theorem iget_moves (dev inum : ℕ) (s : State) :
    Gives (iget dev inum s) fun i t => Moves s t none (some i) := by
  unfold iget
  refine Ends.bind (Q := fun icache t => icache = s.icache ∧ s = t) (ends_look.mpr ⟨rfl, rfl⟩) ?_
  rintro _ _ _ ⟨rfl, rfl⟩
  cases hfind : findSlot s.icache dev inum with
  | inr i =>
    refine Ends.bind (idup_moves s) fun _ t _ h => ?_
    exact h
  | inl free =>
    cases free with
    | none => exact id
    | some i =>
      have hfree : s.refs i = 0 := by
        unfold findSlot at hfind
        split at hfind
        · cases hfind
        · have hzero := List.find?_some (Sum.inl.inj hfind)
          exact of_decide_eq_true hzero
      refine Moves.take ?_ ?_
      · rw [refs_setSlot, hfree]
      · rw [locks_setSlot]
        exact Function.update_eq_self i s.locks

theorem pathStart_moves (cwd : ℕ) (path : Name) (s : State) :
    Gives (pathStart cwd path s) fun i t => Moves s t none (some i) := by
  unfold pathStart
  split
  · exact iget_moves ROOTDEV ROOTINO s
  · exact Ends.bind (idup_moves s) fun _ t _ h => h

/-- dirlookup takes a reference to what it finds. -/
theorem dirlookup_moves (name : Name) (s : State) :
    Gives (dirlookup i name s) fun r t => Moves s t none (r.map Prod.fst) := by
  have hloop : ∀ fuel off s, Gives (lookupLoop i name fuel off s) fun r t =>
      Moves s t none (r.map Prod.fst) := by
    intro fuel
    induction fuel with
    | zero => exact fun off s => ⟨fun _ => rfl, rfl⟩
    | succ fuel ih =>
      intro off s
      unfold lookupLoop
      refine Ends.bind (Q := fun _ t => s = t) (ends_look.mpr rfl) ?_
      rintro dp _ _ rfl
      split
      · refine Ends.bind (readDirent_neutral s) fun de t _ hread => ?_
        have hmove : Moves s t none none := by
          refine ⟨fun k => ?_, hread.locks⟩
          rw [hread.refs]
        split
        · refine Ends.bind (iget_moves dp.dev (get de 0 2) t) fun ip u _ hget => ?_
          exact hmove.trans hget
        · exact (ih _ t).mono fun r u h => hmove.trans h
      · exact ⟨fun _ => rfl, rfl⟩
  unfold dirlookup
  refine Ends.bind (Q := fun _ t => s = t) (ends_ensure (fun _ => rfl) fun _ => id) ?_
  rintro _ _ _ rfl
  exact Ends.bind (Q := fun _ t => s = t) (ends_look.mpr rfl) fun size t _ he => he ▸ hloop _ _ s

theorem ilock_uses (s : State) : Gives (ilock i s) fun _ t => 0 < s.refs i ∧ s.locks i = false ∧
    t.refs = s.refs ∧ t.locks = Function.update s.locks i true := by
  unfold ilock
  refine Ends.bind (Q := fun _ t => 0 < s.refs i ∧ s = t)
    (ends_ensure (fun h => ⟨of_decide_eq_true h, rfl⟩) fun _ => id) ?_
  rintro _ _ _ ⟨hpos, rfl⟩
  refine Ends.bind (Q := fun _ t => s.locks i = false ∧ s = t)
    (ends_ensure (fun h => ⟨Bool.not_inj h, rfl⟩) fun _ => id) ?_
  rintro _ _ _ ⟨hfree, rfl⟩
  have hload : ∀ data, Neutral (setSlot i fun ip => loadDinode data (dinodeOffset ip.inum) ip) :=
    fun _ => setSlot_neutral (fun _ => rfl) fun _ => rfl
  have hvalid : Neutral (setSlot i fun ip => { ip with valid := true }) :=
    setSlot_neutral (fun _ => rfl) fun _ => rfl
  refine Ends.bind (Q := fun _ t => t.refs = s.refs ∧ t.locks = Function.update s.locks i true)
    (ends_update.mpr ?_) ?_
  · rw [refs_setSlot, locks_setSlot]
    exact ⟨Function.update_eq_self i s.refs, rfl⟩
  rintro _ s₁ _ ⟨hrefs, hlocks⟩
  have hrest : Neutral (do
      let ip ← look fun s => s.icache i
      if ip.valid then pure ()
      else do
        let sb ← look State.sb
        let data ← bread ip.dev (IBLOCK ip.inum sb)
        setSlot i fun ip => loadDinode data (dinodeOffset ip.inum) ip
        brelse ip.dev (IBLOCK ip.inum sb)
        setSlot i fun ip => { ip with valid := true }
        ensure (fun s => decide ((s.icache i).type ≠ 0)) .noType : M Unit) := by
    refine look_neutral.bind use_composes fun ip => pure_neutral.ite ?_
    refine look_neutral.bind use_composes fun sb => ?_
    refine (neutral_of_frame bread_within).bind use_composes fun data => ?_
    refine (hload data).bind use_composes fun _ => ?_
    refine (neutral_of_frame brelse_within).bind use_composes fun _ => ?_
    exact hvalid.bind use_composes fun _ => ensure_neutral
  refine (hrest s₁).mono fun _ t h => ?_
  exact ⟨hpos, hfree, h.refs.trans hrefs, h.locks.trans hlocks⟩

theorem iunlock_uses (s : State) : Gives (iunlock i s) fun _ t =>
    t.refs = s.refs ∧ t.locks = Function.update s.locks i false := by
  unfold iunlock
  refine Ends.bind (Q := fun _ t => s = t) (ends_ensure (fun _ => rfl) fun _ => id) ?_
  rintro _ _ _ rfl
  refine ends_update.mpr ?_
  rw [refs_setSlot, locks_setSlot]
  exact ⟨Function.update_eq_self i s.refs, rfl⟩

/-- iput gives a reference back, also where it frees the inode. -/
theorem iput_moves (s : State) (hpos : 0 < s.refs i) :
    Gives (iput i s) fun _ t => Moves s t (some i) none := by
  unfold iput
  refine Ends.bind (Q := fun _ t => s.locks i = false ∧ s = t)
    (ends_ensure (fun h => ⟨Bool.not_inj h, rfl⟩) fun _ => id) ?_
  rintro _ _ _ ⟨hfree, rfl⟩
  refine Ends.bind (Q := fun _ t => t.refs = s.refs ∧ t.locks = Function.update s.locks i true)
    (ends_update.mpr ?_) ?_
  · rw [refs_setSlot, locks_setSlot]
    exact ⟨Function.update_eq_self i s.refs, rfl⟩
  rintro _ s₁ _ ⟨hrefs, hlocks⟩
  have hbody : Neutral (do
      let ip ← look fun s => s.icache i
      (if ip.valid ∧ ip.nlink = 0 ∧ ip.ref = 1 then do
        itrunc i
        setSlot i fun ip => { ip with type := 0 }
        iupdate i
        setSlot i fun ip => { ip with valid := false }
      else pure ()) : M Unit) := by
    have htype : Neutral (setSlot i fun ip => { ip with type := 0 }) :=
      setSlot_neutral (fun _ => rfl) fun _ => rfl
    have hvalid : Neutral (setSlot i fun ip => { ip with valid := false }) :=
      setSlot_neutral (fun _ => rfl) fun _ => rfl
    refine look_neutral.bind use_composes fun ip => Within.ite ?_ pure_neutral
    refine itrunc_neutral.bind use_composes fun _ => ?_
    refine htype.bind use_composes fun _ => ?_
    exact iupdate_neutral.bind use_composes fun _ => hvalid
  refine gives_bind₂ (hbody s₁) fun _ s₂ hs₂ => ?_
  refine Ends.bind (Q := fun _ t => t.refs = s.refs ∧ t.locks = s.locks) (ends_update.mpr ?_) ?_
  · rw [refs_setSlot, locks_setSlot, hs₂.refs, hs₂.locks, hrefs, hlocks]
    refine ⟨?_, ?_⟩
    · show Function.update s.refs i (s₂.refs i) = s.refs
      rw [hs₂.refs, hrefs]
      exact Function.update_eq_self i s.refs
    · rw [Function.update_idem, ← hfree]
      exact Function.update_eq_self i s.locks
  rintro _ s₃ _ ⟨hrefs₃, hlocks₃⟩
  refine ends_update.mpr (.give hpos ?_ ?_)
  · rw [refs_setSlot, hrefs₃]
    show Function.update s.refs i (s₃.refs i - 1) = _
    rw [hrefs₃]
  · rw [locks_setSlot]
    show Function.update s₃.locks i (s₃.locks i) = _
    rw [Function.update_eq_self, hlocks₃]

theorem Moves.start (s : State) (r : Option ℕ) : Moves s s r r := ⟨fun _ => rfl, rfl⟩

/-- The reference that the lock was taken with is given back with it. -/
theorem iunlockput_moves {s₁ s₂ : State} (hpos : 0 < s.refs i) (hfree : s.locks i = false)
    (hrefs : s₁.refs = s.refs) (hlocks : s₁.locks = Function.update s.locks i true)
    (h : Moves s₁ s₂ none r) : Gives (iunlockput i s₂) fun _ t => Moves s t (some i) r := by
  unfold iunlockput
  refine Ends.bind (iunlock_uses s₂) fun _ s₃ _ h₃ => ?_
  obtain ⟨hrefs₃, hlocks₃⟩ := h₃
  have hpos₃ : 0 < s₃.refs i := by
    have hi := h.refs i
    rw [count_none, hrefs] at hi
    rw [hrefs₃]
    omega
  refine (iput_moves s₃ hpos₃).mono fun _ t ht => ⟨fun k => ?_, ?_⟩
  · have hput := ht.refs k
    have hmove := h.refs k
    rw [count_none, hrefs₃] at hput
    rw [count_none, hrefs] at hmove
    omega
  · rw [ht.locks, hlocks₃, h.locks, hlocks, Function.update_idem, ← hfree]
    exact Function.update_eq_self i s.locks

theorem lookup_moves (name : Name) (s : State) :
    Gives (lookup i name s) fun r t => Moves s t (some i) r := by
  unfold lookup
  refine Ends.bind (ilock_uses s) fun _ s₁ _ hlock => ?_
  obtain ⟨hpos, hfree, hrefs, hlocks⟩ := hlock
  refine Ends.bind (Q := fun _ t => s₁ = t) (ends_look.mpr rfl) ?_
  rintro type _ _ rfl
  split
  · refine Ends.bind (iunlockput_moves hpos hfree hrefs hlocks (.start s₁ none)) fun _ t _ h => ?_
    exact h
  · refine Ends.bind (dirlookup_moves name s₁) fun next s₂ _ hnext => ?_
    exact Ends.bind (iunlockput_moves hpos hfree hrefs hlocks hnext) fun _ t _ h => h

theorem lookups_moves (names : List Name) (s : State) :
    Gives (lookups i names s) fun r t => Moves s t (some i) r := by
  induction names generalizing i s with
  | nil => exact Moves.start s (some i)
  | cons name names ih =>
    rw [lookups_cons]
    refine Ends.bind (lookup_moves name s) fun next t _ h => ?_
    cases next with
    | none => exact h
    | some next => exact (ih t).mono fun r u h' => h.trans h'

theorem stopAt_moves (name : Name) (s : State) :
    Gives (stopAt i name s) fun r t => Moves s t (some i) (r.map Prod.fst) := by
  unfold stopAt
  refine Ends.bind (ilock_uses s) fun _ s₁ _ hlock => ?_
  obtain ⟨hpos, hfree, hrefs, hlocks⟩ := hlock
  refine Ends.bind (Q := fun _ t => s₁ = t) (ends_look.mpr rfl) ?_
  rintro type _ _ rfl
  split
  · refine Ends.bind (iunlockput_moves hpos hfree hrefs hlocks (.start s₁ none)) fun _ t _ h => ?_
    exact h
  · refine Ends.bind (iunlock_uses s₁) fun _ t _ h => ?_
    refine ⟨fun k => ?_, ?_⟩
    · rw [h.1, hrefs]
      rfl
    · rw [h.2, hlocks, Function.update_idem, ← hfree]
      exact Function.update_eq_self i s.locks

theorem namei_moves (cwd : ℕ) (path : Name) (s : State) :
    Gives (namei cwd path s) fun r t => Moves s t none r := by
  rw [namei_eq]
  refine Ends.bind (pathStart_moves cwd path s) fun ip t _ h => ?_
  exact (lookups_moves _ t).mono fun r u h' => h.trans h'

theorem nameiparent_moves (cwd : ℕ) (path : Name) (s : State) :
    Gives (nameiparent cwd path s) fun r t => Moves s t none (r.map Prod.fst) := by
  rcases List.eq_nil_or_concat (components path) with hnil | ⟨elems, last, hlast⟩
  · rw [nameiparent_none cwd hnil]
    refine Ends.bind (pathStart_moves cwd path s) fun ip t _ h => ?_
    have hpos : 0 < t.refs ip := by
      have hip := h.refs ip
      rw [count_none, count_self] at hip
      omega
    exact Ends.bind (iput_moves t hpos) fun _ u _ h' => h.trans h'
  · rw [List.concat_eq_append] at hlast
    rw [nameiparent_eq cwd hlast]
    refine Ends.bind (pathStart_moves cwd path s) fun ip t _ h => ?_
    refine Ends.bind (lookups_moves elems t) fun next u _ h' => ?_
    cases next with
    | none => exact h.trans h'
    | some dp => exact (stopAt_moves last u).mono fun r w h'' => (h.trans h').trans h''

end Moves

section Resolution

/-- What namei and nameiparent do for a path: folds of dirlookup over its elements, that end
with the one reference that they return. The directory for a last element has to be one. -/
structure Resolves (cwd : ℕ) (path : Name) : Prop where
  all : namei cwd path = (do
    let ip ← pathStart cwd path
    lookups ip (components path))
  butLast : ∀ elems last, components path = elems ++ [last] → nameiparent cwd path = (do
    let ip ← pathStart cwd path
    match ← lookups ip elems with
    | none => pure none
    | some dp => stopAt dp last)
  nothing : components path = [] → ∀ s r t, nameiparent cwd path s = .ok (r, t) → r = none
  kept : ∀ s r t, namei cwd path s = .ok (r, t) → Moves s t none r
  keptParent : ∀ s r t, nameiparent cwd path s = .ok (r, t) → Moves s t none (r.map Prod.fst)

theorem namex_resolves (cwd : ℕ) (path : Name) : Resolves cwd path where
  all := namei_eq cwd path
  butLast _ _ h := nameiparent_eq cwd h
  nothing h s r t hrun := by
    rw [nameiparent_none cwd h] at hrun
    obtain ⟨_, _, _, hrun⟩ := bind_ok.mp hrun
    obtain ⟨_, _, _, hrun⟩ := bind_ok.mp hrun
    exact (pure_ok.mp hrun).1.symm
  kept s r t hrun := (namei_moves cwd path s).of_ok hrun
  keptParent s r t hrun := (nameiparent_moves cwd path s).of_ok hrun

def README : Name := [82, 69, 65, 68, 77, 69]

/-- The root, with a file. -/
def rootBlock : Bytes := fun i =>
  if i < 16 then dirent 1 [46] i
  else if i < 32 then dirent 1 [46, 46] (i - 16)
  else if i < 48 then dirent 2 README (i - 32)
  else 0

def rootInode : Inode :=
  ⟨ROOTDEV, ROOTINO, 1, false, true, T_DIR, 0, 0, 1, 48, fun k => if k = 0 then 570 else 0⟩

def readmeInode : Inode := ⟨ROOTDEV, 2, 1, false, true, T_FILE, 0, 0, 1, 0, fun _ => 0⟩

/-- The root is the working directory, in slot 0, and the file is open, in slot 1. -/
def withReadme : State where
  sb := mkfsSuperblock
  blk := fun _ b i =>
    if b = 570 then rootBlock i
    else if b = 45 then if i < 71 then 255 else if i = 71 then 7 else 0
    else if b = 32 then storeDinode (storeDinode (fun _ => 0) (dinodeOffset 1) rootInode)
      (dinodeOffset 2) readmeInode i
    else 0
  held := []
  log := ⟨2, nlog, 1, false, []⟩
  last_alloc_hint := 0
  icache := fun i => if i = 0 then rootInode else if i = 1 then readmeInode else unusedInode
  past := 0
  devsw := fun _ => none
  strict := false

def resultOf {A : Type} (r : Except Halt (A × State)) : Option A :=
  match r with
  | .ok (a, _) => some a
  | .error _ => none

theorem ok_of_result {A : Type} {r : Except Halt (A × State)} {a : A} (h : resultOf r = some a) :
    ∃ t, r = .ok (a, t) := by
  cases r with
  | error e => cases h
  | ok p =>
    obtain ⟨b, t⟩ := p
    obtain rfl := Option.some.inj h
    exact ⟨t, rfl⟩

/-- `README/x`: the fold finds the file, in which nameiparent refuses to look further. -/
theorem not_parent_folds : ¬ ∀ (cwd : ℕ) (path : Name) (elems : List Name) (last : Name)
    (s : State) (dp : ℕ) (t : State) (r : Option (ℕ × Name)) (u : State),
    components path = elems ++ [last] →
    (do
      let ip ← pathStart cwd path
      lookups ip elems) s = .ok (some dp, t) →
    nameiparent cwd path s = .ok (r, u) → r = some (dp, last) := by
  intro h
  obtain ⟨t, ht⟩ := ok_of_result (show resultOf ((do
      let ip ← pathStart 0 (README ++ [slash, 120])
      lookups ip [README]) withReadme) = some (some 1) by decide +kernel)
  obtain ⟨u, hu⟩ := ok_of_result
    (show resultOf (nameiparent 0 (README ++ [slash, 120]) withReadme) =
    some none by decide +kernel)
  have hcomp : components (README ++ [slash, 120]) = [README] ++ [[120]] := by decide
  exact absurd (h 0 _ [README] [120] withReadme 1 t none u hcomp ht hu) nofun

end Resolution

end NorthOS.Fs
