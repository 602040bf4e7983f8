import Lainos.Mkfs.Append

/-!
# What `add_dir` stores

Inode numbers are given in the order in which `add_dir` meets the entries: an
entry, then everything below it, then the entries behind it. So the inode
numbers of a host directory follow from the first one, and `Stored img t cur n`
says that the image holds the tree `t` with inode numbers from `n` on, in the
directory with inode number `cur`.
-/

namespace Lainos.Mkfs

open Library

variable {st st' : State} {i : ℕ}

namespace HostDir

/-- How many inodes the visible entries take. -/
def count : HostDir → ℕ
  | .nil => 0
  | .file name _ rest => (if hidden name then 0 else 1) + rest.count
  | .dir name sub rest => (if hidden name then 0 else 1 + sub.count) + rest.count

/-- The visible entries with their inode numbers. -/
def entries : HostDir → ℕ → List (ℕ × List UInt8)
  | .nil, _ => []
  | .file name _ rest, n =>
    if hidden name then rest.entries n else (n, name) :: rest.entries (n + 1)
  | .dir name sub rest, n =>
    if hidden name then rest.entries n else (n, name) :: rest.entries (n + 1 + sub.count)

def width : HostDir → ℕ
  | .nil => 0
  | .file name _ rest => (if hidden name then 0 else 1) + rest.width
  | .dir name _ rest => (if hidden name then 0 else 1) + rest.width

theorem length_entries (t : HostDir) (n : ℕ) : (t.entries n).length = t.width := by
  induction t generalizing n with
  | nil => rfl
  | file name bytes rest ih =>
    rw [entries, width]
    split_ifs <;> simp [ih]
    omega
  | dir name sub rest _ ih =>
    rw [entries, width]
    split_ifs <;> simp [ih]
    omega

/-- How many blocks a directory with `w` visible entries references. -/
def dirBlocks (w : ℕ) : ℕ := refCount (blockCount (16 * (w + 2)))

/-- How many blocks the inodes below a directory reference. -/
def blocks : HostDir → ℕ
  | .nil => 0
  | .file name bytes rest =>
    (if hidden name then 0 else refCount (blockCount bytes.length)) + rest.blocks
  | .dir name sub rest =>
    (if hidden name then 0 else dirBlocks sub.width + sub.blocks) + rest.blocks

end HostDir

/-! ## Directory contents -/

def entryBytes (es : List (ℕ × List UInt8)) : List UInt8 :=
  es.flatMap fun e => direntBytes e.1 (entryName e.2)

def dotBytes (cur parent : ℕ) : List UInt8 :=
  direntBytes cur dotName ++ direntBytes parent dotdotName

def dirBytes (cur parent : ℕ) (es : List (ℕ × List UInt8)) : List UInt8 :=
  dotBytes cur parent ++ entryBytes es

@[simp] theorem length_direntBytes (n : ℕ) (name : Fin 14 → UInt8) :
    (direntBytes n name).length = 16 := by simp [direntBytes]

theorem length_entryBytes (es : List (ℕ × List UInt8)) :
    (entryBytes es).length = 16 * es.length := by
  induction es with
  | nil => rfl
  | cons e es ih =>
    rw [entryBytes, List.flatMap_cons, List.length_append, length_direntBytes, List.length_cons,
      ← entryBytes, ih]
    omega

theorem length_dirBytes (cur parent : ℕ) (es : List (ℕ × List UInt8)) :
    (dirBytes cur parent es).length = 16 * (es.length + 2) := by
  rw [dirBytes, dotBytes, List.length_append, List.length_append, length_direntBytes,
    length_direntBytes, length_entryBytes]
  omega

/-- The size `add_dir` leaves in a directory with `w` visible entries. -/
def dirSize (w : ℕ) : ℕ := (16 * (w + 2) / BSIZE + 1) * BSIZE

/-- Inode `i` is a directory below `parent` with the visible entries of `t`,
which have the inode numbers from `i + 1` on. -/
def DirAt (img : Disk) (i parent : ℕ) (t : HostDir) : Prop :=
  FileAt img i T_DIR 1 (dirSize t.width) (dirBytes i parent (t.entries (i + 1)))

def Stored (img : Disk) : HostDir → ℕ → ℕ → Prop
  | .nil, _, _ => True
  | .file name bytes rest, cur, n =>
    if hidden name then Stored img rest cur n
    else FileAt img n T_FILE 1 bytes.length bytes ∧ Stored img rest cur (n + 1)
  | .dir name sub rest, cur, n =>
    if hidden name then Stored img rest cur n
    else DirAt img n cur sub ∧ Stored img sub n (n + 1) ∧ Stored img rest cur (n + 1 + sub.count)

theorem Stored.same {img img' : Disk} {t : HostDir} {cur n : ℕ} (h : Stored img t cur n)
    (hs : ∀ j, n ≤ j → j < n + t.count → SameFile img img' j) : Stored img' t cur n := by
  induction t generalizing cur n with
  | nil => trivial
  | file name bytes rest ih =>
    rw [Stored] at h ⊢
    rw [HostDir.count] at hs
    split_ifs at h hs ⊢ with hh
    · exact ih h fun j hlo hhi => hs j hlo (by omega)
    · exact ⟨h.1.same (hs n le_rfl (by omega)), ih h.2 fun j hlo hhi => hs j (by omega) (by omega)⟩
  | dir name sub rest ihsub ih =>
    rw [Stored] at h ⊢
    rw [HostDir.count] at hs
    split_ifs at h hs ⊢ with hh
    · exact ih h fun j hlo hhi => hs j hlo (by omega)
    · exact ⟨h.1.same (hs n le_rfl (by omega)),
        ihsub h.2.1 fun j hlo hhi => hs j (by omega) (by omega),
        ih h.2.2 fun j hlo hhi => hs j (by omega) (by omega)⟩

/-! ## Pieces of `add_dir` -/

theorem filled_zero (img : Disk) {d : Dinode} (h : d.addrs = fun _ => 0) : Filled img d 0 := by
  intro k _
  have hz : refAt img d k = 0 := by
    have haddr : ∀ l, d.addr l = 0 := fun l => by rw [Dinode.addr, h]
    by_cases hk : k ≤ NDIRECT
    · rw [refAt_addr hk, haddr]
    · exact refAt_none (by omega) (haddr _)
  rw [hz]
  refine iff_of_false (by simp) ?_
  split_ifs <;> omega

theorem contents_nil (img : Disk) {d : Dinode} (h : d.addrs = fun _ => 0) : Contents img d [] :=
  ⟨filled_zero img h, by simp⟩

/-- A new inode, which nobody else sees. -/
theorem ialloc_spec {type : Int16} {n : ℕ} (h : Good st) (hroom : st.freeinode < inodeRoom)
    (hrun : ialloc type st = .ok (n, st')) :
    n = st.freeinode ∧ st'.freeinode = st.freeinode + 1 ∧ st'.freeblock = st.freeblock ∧
      Good st' ∧ FileAt st'.img n type 1 0 [] ∧ (∀ j, Live st j → SameFile st.img st'.img j) ∧
      ∀ b < firstData, b < 2 ∨ 28 ≤ b → st'.img b = st.img b := by
  rw [ialloc, Exec.bind_of_ok Exec.get_run, Exec.bind_of_ok Exec.set_run, Exec.bind_eq_ok] at hrun
  obtain ⟨_, st₁, hwrite, hrun⟩ := hrun
  simp only [Exec.pure_run, Except.ok.injEq, Prod.mk.injEq] at hrun
  obtain ⟨rfl, rfl⟩ := hrun
  obtain ⟨-, rfl⟩ := winode_eq_ok.mp hwrite
  generalize hd : (⟨type, 0, 0, 1, 0, fun _ => 0⟩ : Dinode) = d
  have haddr : d.addrs = fun _ => 0 := by rw [← hd]
  have hblk := i2b_lt hroom
  have hnew : dinodeAt (writeDinode st.img st.freeinode d) =
      Function.update (dinodeAt st.img) st.freeinode d := dinodeAt_writeDinode_eq ..
  have hlow : ∀ b, b ≠ i2b st.freeinode → writeDinode st.img st.freeinode d b = st.img b :=
    fun b hb => Function.update_of_ne hb ..
  have hself : dinodeAt (writeDinode st.img st.freeinode d) st.freeinode = d := by
    rw [hnew, Function.update_self]
  have hsame : ∀ j, Live st j → SameFile st.img (writeDinode st.img st.freeinode d) j := by
    intro j hj
    refine ⟨by rw [hnew, Function.update_of_ne (by have := hj.2; omega)], fun k hk hne => hlow _ ?_⟩
    have := (h.owned.area j hj k hk hne).1
    simp only [firstData] at this
    omega
  have howned : Owned (fun j k => refAt (writeDinode st.img st.freeinode d)
      (dinodeAt (writeDinode st.img st.freeinode d) j) k) (Live st)
      fun b => firstData ≤ b ∧ b < st.freeblock := by
    refine h.owned.congr fun j hj k _ => ?_
    rw [(hsame j hj).inode]
    exact (hsame j hj).blocks.refAt k
  have hzero : ∀ k < NREF, refAt (writeDinode st.img st.freeinode d)
      (dinodeAt (writeDinode st.img st.freeinode d) st.freeinode) k = 0 := by
    intro k hk
    rw [hself]
    by_contra hne
    have := (filled_zero (writeDinode st.img st.freeinode d) haddr k hk).mp hne
    split_ifs at this <;> omega
  refine ⟨rfl, rfl, rfl, ⟨?_, h.used, h.low, h.high, hroom, ?_, ?_⟩, ?_, hsame, ?_⟩
  · change max st.nsect _ = _
    rw [h.sectors]
    omega
  · refine (howned.insert hzero).mono (fun j hj => ?_) (fun _ hb => hb)
    have : j < st.freeinode + 1 := hj.2
    by_cases hji : j = st.freeinode
    · exact Or.inl hji
    · exact Or.inr ⟨hj.1, by omega⟩
  · intro b hlo hhi
    have hlo' : st.freeblock ≤ b := hlo
    have := h.low
    simp only [firstData] at this
    exact (hlow b (by omega)).trans (h.zero b hlo' hhi)
  · change FileAt (writeDinode st.img st.freeinode d) _ _ _ _ _
    refine ⟨?_, ?_, ?_, ?_, by simp⟩
    · rw [hself, ← hd]
    · rw [hself, ← hd]
    · rw [hself, ← hd]
      rfl
    · rw [hself]
      exact contents_nil _ haddr
  · exact fun b _ hb => hlow b (by omega)

theorem Good.step_refl (h : Good st) (cur : ℕ) : Step st st cur :=
  ⟨h, le_rfl, fun _ _ _ => ⟨rfl, fun _ _ _ => rfl⟩, fun _ _ _ => rfl⟩

theorem copyFile_spec {type nlink : Int16} {fuel : ℕ} {old bytes : List UInt8} (h : Good st)
    (hi : Live st i) (hf : FileAt st.img i type nlink old.length old) (hfuel : bytes.length ≤ fuel)
    (hrun : copyFile i fuel bytes st = .ok ((), st')) :
    Step st st' i ∧ FileAt st'.img i type nlink (old ++ bytes).length (old ++ bytes) ∧
      st'.freeinode = st.freeinode ∧
      st'.freeblock + refCount (blockCount old.length) =
        st.freeblock + refCount (blockCount (old ++ bytes).length) := by
  induction fuel generalizing st old bytes with
  | zero =>
    obtain rfl := List.length_eq_zero_iff.mp (Nat.le_zero.mp hfuel)
    simp only [copyFile, Exec.pure_run, Except.ok.injEq, Prod.mk.injEq, true_and] at hrun
    subst hrun
    rw [List.append_nil]
    exact ⟨h.step_refl i, hf, rfl, rfl⟩
  | succ fuel ih =>
    rw [copyFile] at hrun
    split_ifs at hrun with hb
    · simp only [Exec.pure_run, Except.ok.injEq, Prod.mk.injEq, true_and] at hrun
      subst hrun hb
      rw [List.append_nil]
      exact ⟨h.step_refl i, hf, rfl, rfl⟩
    · rw [Exec.bind_eq_ok] at hrun
      obtain ⟨_, st₁, hone, hrest⟩ := hrun
      obtain ⟨hstep, hf₁, hfi, hcount⟩ := iappend_spec h hi hf hone
      have hpos : 0 < bytes.length := List.length_pos_iff.mpr hb
      have hfuel₁ : (bytes.drop BSIZE).length ≤ fuel := by
        rw [List.length_drop, BSIZE]
        omega
      obtain ⟨hstep₂, hf₂, hfi₂, hcount₂⟩ := ih hstep.good (hstep.live hi) hf₁ hfuel₁ hrest
      rw [List.append_assoc, List.take_append_drop] at hf₂ hcount₂
      exact ⟨hstep.trans hstep₂, hf₂, hfi₂.trans hfi, by omega⟩

theorem addDots_spec {cur parent : ℕ} {nlink : Int16} (h : Good st) (hi : Live st cur)
    (hf : FileAt st.img cur T_DIR nlink 0 []) (hrun : addDots cur parent st = .ok ((), st')) :
    Step st st' cur ∧ FileAt st'.img cur T_DIR nlink 32 (dotBytes cur parent) ∧
      st'.freeinode = st.freeinode ∧ st'.freeblock = st.freeblock + 1 := by
  rw [addDots, Exec.bind_eq_ok] at hrun
  obtain ⟨_, st₁, hone, htwo⟩ := hrun
  have hf₀ : FileAt st.img cur T_DIR nlink ([] : List UInt8).length [] := hf
  obtain ⟨hstep, hf₁, hfi, hcount⟩ := iappend_spec h hi hf₀ hone
  obtain ⟨hstep₂, hf₂, hfi₂, hcount₂⟩ := iappend_spec hstep.good (hstep.live hi) hf₁ htwo
  rw [List.nil_append] at hf₂ hcount hcount₂
  have hlen : (dotBytes cur parent).length = 32 := by simp [dotBytes]
  refine ⟨hstep.trans hstep₂, ?_, hfi₂.trans hfi, ?_⟩
  · rw [← hlen]
    exact hf₂
  · rw [List.length_append] at hcount₂
    simp only [length_direntBytes] at hcount hcount₂
    have h16 : refCount (blockCount 16) = 1 := rfl
    have h32 : refCount (blockCount (16 + 16)) = 1 := rfl
    have h0 : refCount (blockCount ([] : List UInt8).length) = 0 := rfl
    omega

/-- The last step of `add_dir` makes the size a multiple of the block size that
is larger than the contents. -/
theorem fixSize_spec {type nlink : Int16} {bytes : List UInt8} (h : Good st) (hi : Live st i)
    (hf : FileAt st.img i type nlink bytes.length bytes) (hrun : fixSize i st = .ok ((), st')) :
    Step st st' i ∧ FileAt st'.img i type nlink ((bytes.length / BSIZE + 1) * BSIZE) bytes ∧
      st'.freeinode = st.freeinode ∧ st'.freeblock = st.freeblock := by
  rw [fixSize, rinode, bind_assoc, Exec.bind_eq_ok] at hrun
  obtain ⟨buf, st₀, hread, hwrite⟩ := hrun
  obtain ⟨-, rfl, rfl⟩ := rsect_eq_ok.mp hread
  rw [pure_bind] at hwrite
  change winode i ((dinodeAt st.img i).setSize
    (UInt32.ofNat (((dinodeAt st.img i).size.toNat / BSIZE + 1) * BSIZE))) st = _ at hwrite
  rw [hf.size_eq] at hwrite
  have hblk := i2b_lt (hi.2.trans_le h.inodes)
  have haddr : ((dinodeAt st.img i).setSize (UInt32.ofNat ((bytes.length / BSIZE + 1) * BSIZE))).addrs
      = (dinodeAt st.img i).addrs := rfl
  obtain ⟨hgood, hself, hothers, himg, hfi, hfb⟩ :=
    Layout.winode h hi haddr (fun _ _ _ => rfl) hwrite
  have huntouched : ∀ j, Live st j → Untouched st.img st'.img (dinodeAt st.img j) := by
    intro j hj k hk hne
    refine himg _ ?_
    have := (h.owned.area j hj k hk hne).1
    simp only [firstData] at this
    omega
  have hcont := hf.contents.untouched (huntouched i hi) hf.bound
  refine ⟨⟨hgood, hfi.symm.le, fun j hj hji => ⟨hothers j hji, huntouched j hj⟩, ?_⟩,
    ⟨?_, ?_, ?_, ?_, hf.bound⟩, hfi, hfb⟩
  · exact fun b _ hb => himg b (by omega)
  · rw [hself]
    exact hf.type_eq
  · rw [hself]
    exact hf.nlink_eq
  · rw [hself]
    change (UInt32.ofNat _).toNat = _
    rw [UInt32.toNat_ofNat']
    refine Nat.mod_eq_of_lt ?_
    have hb := hf.bound
    have hmax : MAXFILE * BSIZE = 71680 := rfl
    simp only [BSIZE]
    omega
  · rw [hself]
    exact ⟨hcont.filled, hcont.data⟩

/-- Work on an inode that did not exist before changes none of the old ones. -/
theorem Step.fresh (cur : ℕ) {st₁ : State} (h₁ : ∀ j, Live st j → SameFile st.img st₁.img j)
    (hlive : ∀ j, Live st j → Live st₁ j ∧ j ≠ i) (h₂ : Step st₁ st' i)
    (hgrow : st.freeinode ≤ st₁.freeinode)
    (hlow : ∀ b < firstData, b < 2 ∨ 28 ≤ b → st₁.img b = st.img b) :
    Step st st' cur ∧ ∀ j, Live st j → SameFile st.img st'.img j := by
  have hall : ∀ j, Live st j → SameFile st.img st'.img j :=
    fun j hj => (h₁ j hj).trans (h₂.others j (hlive j hj).1 (hlive j hj).2)
  exact ⟨⟨h₂.good, hgrow.trans h₂.grow, fun j hj _ => hall j hj,
    fun b hb hb' => (h₂.low b hb hb').trans (hlow b hb hb')⟩, hall⟩

/-! ## The whole directory -/

/-- `addEntries` has run on `t`: the tree is stored and `cur`, whose contents were
`bytes`, has got its entries. -/
structure Entered (st st' : State) (t : HostDir) (cur : ℕ) (nlink : Int16) (bytes : List UInt8) :
    Prop where
  step : Step st st' cur
  freeinode : st'.freeinode = st.freeinode + t.count
  dir : FileAt st'.img cur T_DIR nlink (bytes ++ entryBytes (t.entries st.freeinode)).length
    (bytes ++ entryBytes (t.entries st.freeinode))
  stored : Stored st'.img t cur st.freeinode
  count : st'.freeblock + refCount (blockCount bytes.length) = st.freeblock + t.blocks +
    refCount (blockCount (bytes ++ entryBytes (t.entries st.freeinode)).length)

/-- A hidden entry makes no difference. -/
theorem Entered.skip {t u : HostDir} {cur : ℕ} {nlink : Int16} {bytes : List UInt8}
    (h : Entered st st' t cur nlink bytes) (hcount : u.count = t.count)
    (hentries : u.entries = t.entries) (hblocks : u.blocks = t.blocks)
    (hstored : ∀ img cur n, Stored img u cur n = Stored img t cur n) :
    Entered st st' u cur nlink bytes := by
  refine ⟨h.step, hcount ▸ h.freeinode, hentries ▸ h.dir, ?_, ?_⟩
  · rw [hstored]
    exact h.stored
  · rw [hentries, hblocks]
    exact h.count

/-- A child `n` has been built, its entry is appended, and the rest follows. -/
theorem Entered.cons {t : HostDir} {cur n : ℕ} {nlink : Int16} {bytes name : List UInt8}
    {st₁ : State} (hcur : Live st cur) (hf : FileAt st.img cur T_DIR nlink bytes.length bytes)
    (h₁ : Step st st₁ cur) (hsame : SameFile st.img st₁.img cur)
    (hent : iappend cur (direntBytes n (entryName name)) st₁ = .ok ((), st'))
    (st'' : State) (hrest : ∀ bytes, FileAt st'.img cur T_DIR nlink bytes.length bytes →
      Entered st' st'' t cur nlink bytes) :
    Step st st'' cur ∧ st''.freeinode = st₁.freeinode + t.count ∧
      FileAt st''.img cur T_DIR nlink
        (bytes ++ entryBytes ((n, name) :: t.entries st₁.freeinode)).length
        (bytes ++ entryBytes ((n, name) :: t.entries st₁.freeinode)) ∧
      Stored st''.img t cur st₁.freeinode ∧
      (∀ j, Live st₁ j → j ≠ cur → SameFile st₁.img st''.img j) ∧
      st''.freeblock + refCount (blockCount bytes.length) = st₁.freeblock + t.blocks +
        refCount (blockCount (bytes ++ entryBytes ((n, name) :: t.entries st₁.freeinode)).length) := by
  obtain ⟨hstep, hf₁, hfi, hcount⟩ := iappend_spec h₁.good (h₁.live hcur) (hf.same hsame) hent
  have hr := hrest _ hf₁
  have hbytes : bytes ++ direntBytes n (entryName name) ++ entryBytes (t.entries st'.freeinode) =
      bytes ++ entryBytes ((n, name) :: t.entries st₁.freeinode) := by
    rw [hfi, List.append_assoc]
    rfl
  have hdir := hr.dir
  have hcount' := hr.count
  rw [hbytes] at hdir hcount'
  refine ⟨h₁.trans (hstep.trans hr.step), by rw [hr.freeinode, hfi], hdir, hfi ▸ hr.stored,
    (hstep.trans hr.step).others, by omega⟩

theorem addEntries_spec {t : HostDir} {cur : ℕ} {nlink : Int16} {bytes : List UInt8} (h : Good st)
    (hcur : Live st cur) (hf : FileAt st.img cur T_DIR nlink bytes.length bytes)
    (hroom : st.freeinode + t.count ≤ inodeRoom) (hrun : addEntries cur t st = .ok ((), st')) :
    Entered st st' t cur nlink bytes := by
  induction t generalizing st st' cur bytes nlink with
  | nil =>
    simp only [addEntries, Exec.pure_run, Except.ok.injEq, Prod.mk.injEq, true_and] at hrun
    subst hrun
    refine ⟨h.step_refl cur, rfl, by simpa [HostDir.entries, entryBytes] using hf, trivial, ?_⟩
    simp [HostDir.entries, HostDir.blocks, entryBytes]
  | file name data rest ih =>
    rw [addEntries] at hrun
    by_cases hh : hidden name = true
    · rw [if_pos hh] at hrun
      have hcount : (HostDir.file name data rest).count = rest.count := by simp [HostDir.count, hh]
      refine (ih h hcur hf (hcount ▸ hroom) hrun).skip hcount ?_ ?_ ?_
      · funext n
        simp [HostDir.entries, hh]
      · simp [HostDir.blocks, hh]
      · simp [Stored, hh]
    · simp only [HostDir.count, if_neg hh] at hroom
      rw [if_neg hh, Exec.bind_eq_ok] at hrun
      obtain ⟨child, st₁, halloc, hrun⟩ := hrun
      rw [Exec.bind_eq_ok] at hrun
      obtain ⟨_, st₂, hcopy, hrun⟩ := hrun
      rw [Exec.bind_eq_ok] at hrun
      obtain ⟨_, st₃, hent, hrest⟩ := hrun
      obtain ⟨rfl, hfi₁, hfb₁, hg₁, hf₁, hsame₁, hlow₁⟩ := ialloc_spec h (by omega) halloc
      have hlive₁ : Live st₁ st.freeinode := ⟨hcur.1.trans hcur.2.le, by omega⟩
      have hf₁' : FileAt st₁.img st.freeinode T_FILE 1 ([] : List UInt8).length [] := hf₁
      obtain ⟨hstep₂, hf₂, hfi₂, hcount₂⟩ := copyFile_spec hg₁ hlive₁ hf₁' le_rfl hcopy
      rw [List.nil_append] at hf₂ hcount₂
      obtain ⟨hstep, hall⟩ := Step.fresh cur hsame₁
        (fun j hj => ⟨⟨hj.1, by have := hj.2; omega⟩, by have := hj.2; omega⟩) hstep₂ (by omega) hlow₁
      have hne : st.freeinode ≠ cur := hcur.2.ne'
      obtain ⟨hfi₃, hgood₃, hcur₃⟩ : st₃.freeinode = st₂.freeinode ∧ Good st₃ ∧ Live st₃ cur := by
        obtain ⟨hs, -, hfi, -⟩ :=
          iappend_spec hstep.good (hstep.live hcur) (hf.same (hall cur hcur)) hent
        exact ⟨hfi, hs.good, hs.live (hstep.live hcur)⟩
      obtain ⟨hs, hfi, hdir, hst, hkept, hcount⟩ := Entered.cons hcur hf hstep (hall cur hcur) hent
        st' fun b hb => ih hgood₃ hcur₃ hb (by omega) hrest
      have hnext : st₂.freeinode = st.freeinode + 1 := by omega
      rw [hnext] at hfi hdir hst hcount
      have h0 : refCount (blockCount ([] : List UInt8).length) = 0 := rfl
      refine ⟨hs, ?_, ?_, ?_, ?_⟩
      · rw [hfi, HostDir.count, if_neg hh]
        omega
      · rwa [HostDir.entries, if_neg hh]
      · rw [Stored, if_neg hh]
        exact ⟨hf₂.same (hkept _ (hstep₂.live hlive₁) hne), hst⟩
      · rw [HostDir.entries, HostDir.blocks, if_neg hh, if_neg hh]
        omega
  | dir name sub rest ihsub ih =>
    rw [addEntries] at hrun
    by_cases hh : hidden name = true
    · rw [if_pos hh] at hrun
      have hcount : (HostDir.dir name sub rest).count = rest.count := by simp [HostDir.count, hh]
      refine (ih h hcur hf (hcount ▸ hroom) hrun).skip hcount ?_ ?_ ?_
      · funext n
        simp [HostDir.entries, hh]
      · simp [HostDir.blocks, hh]
      · simp [Stored, hh]
    · simp only [HostDir.count, if_neg hh] at hroom
      rw [if_neg hh, Exec.bind_eq_ok] at hrun
      obtain ⟨child, st₁, halloc, hrun⟩ := hrun
      rw [Exec.bind_eq_ok] at hrun
      obtain ⟨_, sta, hdots, hrun⟩ := hrun
      rw [Exec.bind_eq_ok] at hrun
      obtain ⟨_, stb, hsub, hrun⟩ := hrun
      rw [Exec.bind_eq_ok] at hrun
      obtain ⟨_, st₂, hfix, hrun⟩ := hrun
      rw [Exec.bind_eq_ok] at hrun
      obtain ⟨_, st₃, hent, hrest⟩ := hrun
      obtain ⟨rfl, hfi₁, hfb₁, hg₁, hf₁, hsame₁, hlow₁⟩ := ialloc_spec h (by omega) halloc
      have hlive₁ : Live st₁ st.freeinode := ⟨hcur.1.trans hcur.2.le, by omega⟩
      obtain ⟨hstepa, hfa, hfia, hfba⟩ := addDots_spec hg₁ hlive₁ hf₁ hdots
      have hla := hstepa.live hlive₁
      have hlen : (dotBytes st.freeinode cur).length = 32 := by simp [dotBytes]
      have hb := ihsub hstepa.good hla (hlen ▸ hfa) (by omega) hsub
      have hlb := hb.step.live hla
      obtain ⟨hstepc, hfc, hfic, hfbc⟩ := fixSize_spec hb.step.good hlb hb.dir hfix
      have hstep₂ := (hstepa.trans hb.step).trans hstepc
      have hfisub : sta.freeinode = st.freeinode + 1 := by omega
      have hdirlen : (dotBytes st.freeinode cur ++ entryBytes (sub.entries (st.freeinode + 1))).length
          = 16 * (sub.width + 2) := by
        rw [← dirBytes, length_dirBytes, HostDir.length_entries]
      have hcounts := hb.count
      rw [hfisub, hdirlen, hlen] at hcounts
      rw [hfisub, hdirlen] at hfc
      have hchild : DirAt st₂.img st.freeinode cur sub := hfc
      have hsubst : Stored st₂.img sub st.freeinode (st.freeinode + 1) := by
        refine (hfisub ▸ hb.stored).same fun j hlo hhi => hstepc.others j ⟨by omega, ?_⟩ (by omega)
        rw [hb.freeinode]
        omega
      obtain ⟨hstep, hall⟩ := Step.fresh cur hsame₁
        (fun j hj => ⟨⟨hj.1, by have := hj.2; omega⟩, by have := hj.2; omega⟩) hstep₂ (by omega) hlow₁
      have hne : st.freeinode ≠ cur := hcur.2.ne'
      have hnext : st₂.freeinode = st.freeinode + 1 + sub.count := by
        rw [hfic, hb.freeinode]
        omega
      obtain ⟨hfi₃, hgood₃, hcur₃⟩ : st₃.freeinode = st₂.freeinode ∧ Good st₃ ∧ Live st₃ cur := by
        obtain ⟨hs, -, hfi, -⟩ :=
          iappend_spec hstep.good (hstep.live hcur) (hf.same (hall cur hcur)) hent
        exact ⟨hfi, hs.good, hs.live (hstep.live hcur)⟩
      obtain ⟨hs, hfi, hdir, hst, hkept, hcount⟩ := Entered.cons hcur hf hstep (hall cur hcur) hent
        st' fun b hb => ih hgood₃ hcur₃ hb (by omega) hrest
      rw [hnext] at hfi hdir hst hcount
      have h32 : refCount (blockCount 32) = 1 := rfl
      refine ⟨hs, ?_, ?_, ?_, ?_⟩
      · rw [hfi, HostDir.count, if_neg hh]
        omega
      · rwa [HostDir.entries, if_neg hh]
      · rw [Stored, if_neg hh]
        refine ⟨hchild.same (hkept _ (hstep₂.live hlive₁) hne), hsubst.same fun j hlo hhi => ?_, hst⟩
        refine hkept j ⟨by omega, by omega⟩ ?_
        have := hcur.2
        omega
      · rw [HostDir.entries, HostDir.blocks, if_neg hh, if_neg hh, HostDir.dirBlocks]
        omega

/-! ## The whole image -/

/-- How many blocks a tree needs, its root directory included. -/
def HostDir.total (t : HostDir) : ℕ := dirBlocks t.width + t.blocks

theorem addDir_spec {t : HostDir} {cur parent : ℕ} (h : Good st) (hcur : Live st cur)
    (hnext : st.freeinode = cur + 1) (hf : FileAt st.img cur T_DIR 1 0 [])
    (hroom : st.freeinode + t.count ≤ inodeRoom) (hrun : addDir t cur parent st = .ok ((), st')) :
    Step st st' cur ∧ st'.freeinode = st.freeinode + t.count ∧ DirAt st'.img cur parent t ∧
      Stored st'.img t cur (cur + 1) ∧ st'.freeblock = st.freeblock + t.total := by
  rw [addDir, Exec.bind_eq_ok] at hrun
  obtain ⟨_, st₁, hdots, hrun⟩ := hrun
  rw [Exec.bind_eq_ok] at hrun
  obtain ⟨_, st₂, hsub, hfix⟩ := hrun
  obtain ⟨hstep₁, hf₁, hfi₁, hfb₁⟩ := addDots_spec h hcur hf hdots
  have hl₁ := hstep₁.live hcur
  have hlen : (dotBytes cur parent).length = 32 := by simp [dotBytes]
  have h₂ := addEntries_spec hstep₁.good hl₁ (hlen ▸ hf₁) (by omega) hsub
  obtain ⟨hstep₃, hf₃, hfi₃, hfb₃⟩ := fixSize_spec h₂.step.good (h₂.step.live hl₁) h₂.dir hfix
  have hfirst : st₁.freeinode = cur + 1 := by omega
  have hdirlen : (dotBytes cur parent ++ entryBytes (t.entries (cur + 1))).length =
      16 * (t.width + 2) := by
    rw [← dirBytes, length_dirBytes, HostDir.length_entries]
  have hcount := h₂.count
  rw [hfirst, hdirlen, hlen] at hcount
  rw [hfirst, hdirlen] at hf₃
  have h32 : refCount (blockCount 32) = 1 := rfl
  refine ⟨(hstep₁.trans h₂.step).trans hstep₃, by rw [hfi₃, h₂.freeinode, hfi₁], hf₃, ?_, ?_⟩
  · refine (hfirst ▸ h₂.stored).same fun j hlo hhi => hstep₃.others j ⟨by omega, ?_⟩ (by omega)
    rw [h₂.freeinode]
    omega
  · rw [HostDir.total, HostDir.dirBlocks]
    omega

theorem zeroSectors_spec (st : State) (n : ℕ) : ∃ st', zeroSectors n st = .ok ((), st') ∧
    st'.img = (fun b => if b < n then zeroBlock else st.img b) ∧ st'.nsect = max st.nsect n ∧
    (st'.freeblock, st'.usedblocks, st'.freeinode, st'.written, st'.assigned) =
      (st.freeblock, st.usedblocks, st.freeinode, st.written, st.assigned) := by
  induction n with
  | zero => exact ⟨st, rfl, by simp, by simp, rfl⟩
  | succ n ih =>
    obtain ⟨st₁, hrun, himg, hsect, hfields⟩ := ih
    refine ⟨st₁.store n zeroBlock, ?_, ?_, ?_, hfields⟩
    · rw [zeroSectors, Exec.bind_of_ok hrun, wsect_run]
    · rw [store_img, himg]
      funext b
      by_cases hb : b = n
      · subst hb
        rw [Function.update_self, if_pos (by omega)]
      · rw [Function.update_of_ne hb]
        by_cases hlt : b < n
        · rw [if_pos hlt, if_pos (by omega)]
        · rw [if_neg hlt, if_neg (by omega)]
    · rw [store_nsect, hsect]
      omega

/-- The superblock of every image. -/
def superblock : Superblock := ⟨1024, 985, 200, 10⟩

/-- An image without inodes. -/
theorem mkfs_spec : ∃ st, mkfs 985 LOGSIZE 1024 State.empty = .ok ((), st) ∧ Good st ∧
    st.freeinode = 1 ∧ st.freeblock = firstData ∧
    st.img = Function.update (fun _ => zeroBlock) 1 superblock.encode ∧
    st.written = [] ∧ st.assigned = [] := by
  generalize hst : ({ State.empty with bitblocks := 1, usedblocks := 29, freeblock := 29 } : State) =
    st₀
  obtain ⟨st₁, hzero, himg, hsect, hfields⟩ := zeroSectors_spec st₀ 1024
  have hfields₀ : (st₀.freeblock, st₀.usedblocks, st₀.freeinode, st₀.written, st₀.assigned) =
      (29, 29, 1, [], []) := by rw [← hst]; rfl
  have hnsect₀ : st₀.nsect = 0 := by rw [← hst]; rfl
  rw [hfields₀] at hfields
  rw [hnsect₀] at hsect
  simp only [Prod.mk.injEq] at hfields
  have himg' : st₁.img = fun _ => zeroBlock := by
    rw [himg, ← hst]
    funext b
    simp [State.empty]
  have hfinal : (st₁.store 1 superblock.encode).img =
      Function.update (fun _ => zeroBlock) 1 superblock.encode := by rw [store_img, himg']
  refine ⟨st₁.store 1 superblock.encode, ?_, ⟨?_, ?_, ?_, ?_, ?_, ?_, ?_⟩, hfields.2.2.1,
    hfields.1, hfinal, hfields.2.2.2.1, hfields.2.2.2.2⟩
  · have h₀ : mkfs 985 LOGSIZE 1024 State.empty =
        (zeroSectors 1024 >>= fun _ => wsect 1 superblock.encode) st₀ := by
      have hbit : 1024 / (512 * 8) + 1 = 1 := by decide
      have hused : ninodes / IPB + 3 + 1 = 29 := by decide
      have hsum : 985 + 29 + LOGSIZE = 1024 := by decide
      rw [mkfs, hbit, hused, Exec.bind_of_ok (Exec.modify_run _), if_pos hsum, hsum, hst]
      rfl
    rw [h₀, Exec.bind_of_ok hzero, wsect_run]
  · rw [store_nsect, hsect]
    rfl
  · rw [store_usedblocks, store_freeblock, hfields.1, hfields.2.1]
  · rw [store_freeblock, hfields.1, firstData]
  · rw [store_freeblock, hfields.1]
    omega
  · rw [store_freeinode, hfields.2.2.1, inodeRoom]
    omega
  · have hnone : ∀ j, ¬ Live (st₁.store 1 superblock.encode) j := by
      rintro j ⟨hlo, hhi⟩
      rw [store_freeinode, hfields.2.2.1] at hhi
      omega
    exact ⟨fun j hj => absurd hj (hnone j), fun j _ hj => absurd hj (hnone j)⟩
  · intro b hlo _
    rw [store_freeblock, hfields.1] at hlo
    rw [hfinal, Function.update_of_ne (by omega)]

theorem testBit_bitmap (n b : ℕ) : testBit (bitmap n) b = decide (b < n) := by
  induction n with
  | zero => simp [bitmap, testBit, zeroBlock]
  | succ n ih =>
    rw [bitmap, testBit_setBit, ih]
    by_cases h₁ : b < n <;> by_cases h₂ : n = b <;> simp [h₁, h₂] <;> omega

/-- What a finished image holds, as long as the inode blocks hold all inodes. -/
structure Built (t : HostDir) (st : State) : Prop where
  good : Good st
  freeinode : st.freeinode = 2 + t.count
  freeblock : st.freeblock = firstData + t.total
  root : DirAt st.img ROOTINO ROOTINO t
  stored : Stored st.img t ROOTINO 2
  super : st.img 1 = superblock.encode
  bits : st.img 28 = bitmap st.freeblock

theorem main_spec {t : HostDir} (hroom : 2 + t.count ≤ inodeRoom)
    (hrun : main t State.empty = .ok ((), st')) : Built t st' := by
  obtain ⟨st₀, hmkfs, hg₀, hfi₀, hfb₀, himg₀, -⟩ := mkfs_spec
  rw [main, Exec.bind_of_ok hmkfs, Exec.bind_eq_ok] at hrun
  obtain ⟨root, st₁, halloc, hrun⟩ := hrun
  obtain ⟨rfl, hfi₁, hfb₁, hg₁, hf₁, -, hlow₁⟩ :=
    ialloc_spec hg₀ (by rw [hfi₀, inodeRoom]; omega) halloc
  rw [hfi₀] at hf₁ hrun hfi₁
  rw [if_pos (show 1 = ROOTINO from rfl), Exec.bind_eq_ok] at hrun
  obtain ⟨_, st₂, hdir, hrun⟩ := hrun
  have hlive₁ : Live st₁ 1 := ⟨le_rfl, by omega⟩
  obtain ⟨hstep, hfi₂, hroot, hstored, hfb₂⟩ := addDir_spec hg₁ hlive₁ hfi₁ hf₁ (by omega) hdir
  rw [Exec.bind_of_ok Exec.get_run, balloc, hstep.good.used] at hrun
  have hhigh := hstep.good.high
  rw [if_pos (by omega), wsect_run] at hrun
  simp only [Except.ok.injEq, Prod.mk.injEq, true_and] at hrun
  subst hrun
  -- the bitmap block is neither an inode block nor a block of a file
  have hbit : ninodes / IPB + 3 = 28 := rfl
  rw [hbit]
  have hsame : ∀ j, Live st₂ j → SameFile st₂.img (st₂.store 28 (bitmap st₂.freeblock)).img j := by
    intro j hj
    refine ⟨dinodeAt_congr (Function.update_of_ne ?_ ..), fun k hk hne => Function.update_of_ne ?_ ..⟩
    · have hblk : IBLOCK j < 28 := (i2b_lt (hj.2.trans_le hstep.good.inodes)).2
      omega
    · have := (hstep.good.owned.area j hj k hk hne).1
      simp only [firstData] at this
      omega
  have hlow := hstep.good.low
  simp only [firstData] at hlow
  refine ⟨⟨?_, hstep.good.used, hstep.good.low, hhigh, hstep.good.inodes, ?_, ?_⟩, by
    rw [store_freeinode]; omega, by rw [store_freeblock]; omega,
    hroot.same (hsame 1 (hstep.live hlive₁)), ?_, ?_, ?_⟩
  · rw [store_nsect, hstep.good.sectors]
    rfl
  · refine hstep.good.owned.congr fun j hj k _ => ?_
    rw [(hsame j hj).inode]
    exact (hsame j hj).blocks.refAt k
  · intro b hlo hhi
    rw [store_freeblock] at hlo
    rw [store_img, Function.update_of_ne (by omega)]
    exact hstep.good.zero b hlo hhi
  · refine hstored.same fun j hlo hhi => hsame j ⟨by omega, by omega⟩
  · rw [store_img, Function.update_of_ne (by omega), hstep.low 1 (by decide) (by omega),
      hlow₁ 1 (by decide) (by omega), himg₀, Function.update_self]
  · rw [store_img, Function.update_self, store_freeblock]

/-! ## Trees that fit -/

/-- Every file and every directory below has at most `MAXFILE` blocks. -/
def HostDir.Small : HostDir → Prop
  | .nil => True
  | .file name bytes rest => (hidden name = false → bytes.length ≤ MAXFILE * BSIZE) ∧ rest.Small
  | .dir name sub rest =>
    (hidden name = false → 16 * (sub.width + 2) ≤ MAXFILE * BSIZE ∧ sub.Small) ∧ rest.Small

theorem ialloc_ok (type : Int16) (h : Good st) (hroom : st.freeinode < inodeRoom) :
    ∃ st', ialloc type st = .ok (st.freeinode, st') := by
  have hblk := i2b_lt hroom
  have hlt : i2b st.freeinode < ({ st with freeinode := st.freeinode + 1 } : State).nsect := by
    rw [h.sectors]
    omega
  obtain ⟨st', hwrite⟩ := winode_ok hlt ⟨type, 0, 0, 1, 0, fun _ => 0⟩
  refine ⟨st', ?_⟩
  rw [ialloc, Exec.bind_of_ok Exec.get_run, Exec.bind_of_ok Exec.set_run, Exec.bind_of_ok hwrite,
    Exec.pure_run]

theorem fixSize_ok (h : Good st) (hi : Live st i) : ∃ st', fixSize i st = .ok ((), st') := by
  have hblk := i2b_lt (hi.2.trans_le h.inodes)
  have hlt : i2b i < st.nsect := by rw [h.sectors]; omega
  rw [fixSize, rinode, bind_assoc, Exec.bind_of_ok (rsect_eq_ok.mpr ⟨hlt, rfl, rfl⟩), pure_bind]
  exact ⟨_, winode_eq_ok.mpr ⟨hlt, rfl⟩⟩

theorem copyFile_ok {type nlink : Int16} (fuel : ℕ) {old bytes : List UInt8} (h : Good st)
    (hi : Live st i) (hf : FileAt st.img i type nlink old.length old)
    (hlen : (old ++ bytes).length ≤ MAXFILE * BSIZE)
    (hroom : st.freeblock + refCount (blockCount (old ++ bytes).length) ≤
      1024 + refCount (blockCount old.length)) :
    ∃ st', copyFile i fuel bytes st = .ok ((), st') := by
  induction fuel generalizing st old bytes with
  | zero => exact ⟨st, rfl⟩
  | succ fuel ih =>
    rw [copyFile]
    by_cases hb : bytes = []
    · rw [if_pos hb]
      exact ⟨st, rfl⟩
    have hle : (old ++ bytes.take BSIZE).length ≤ (old ++ bytes).length := by
      rw [List.length_append, List.length_append, List.length_take]
      omega
    have hjoin : old ++ bytes.take BSIZE ++ bytes.drop BSIZE = old ++ bytes := by simp
    obtain ⟨st₁, hone⟩ := iappend_ok (p := bytes.take BSIZE) h hi hf (hle.trans hlen)
      ((Nat.add_le_add_left (refCount_mono (blockCount_mono hle)) _).trans hroom)
    obtain ⟨hstep, hf₁, -, hcount⟩ := iappend_spec h hi hf hone
    obtain ⟨st', hrest⟩ := ih hstep.good (hstep.live hi) hf₁ (by rwa [hjoin]) (by rw [hjoin]; omega)
    rw [if_neg hb, Exec.bind_of_ok hone]
    exact ⟨st', hrest⟩

theorem addDots_ok {cur : ℕ} (parent : ℕ) {nlink : Int16} (h : Good st) (hi : Live st cur)
    (hf : FileAt st.img cur T_DIR nlink 0 []) (hroom : st.freeblock < 1024) :
    ∃ st', addDots cur parent st = .ok ((), st') := by
  have hmax : MAXFILE * BSIZE = 71680 := rfl
  have h16 : refCount (blockCount 16) = 1 := rfl
  have h32 : refCount (blockCount (16 + 16)) = 1 := rfl
  have h0 : refCount (blockCount ([] : List UInt8).length) = 0 := rfl
  have hf₀ : FileAt st.img cur T_DIR nlink ([] : List UInt8).length [] := hf
  obtain ⟨st₁, hone⟩ := iappend_ok (p := direntBytes cur dotName) h hi hf₀
    (by simp [hmax]) (by rw [List.nil_append, length_direntBytes]; omega)
  obtain ⟨hstep, hf₁, -, hcount⟩ := iappend_spec h hi hf₀ hone
  rw [List.nil_append, length_direntBytes] at hcount
  obtain ⟨st', htwo⟩ := iappend_ok (p := direntBytes parent dotdotName) hstep.good (hstep.live hi)
    hf₁ (by simp [hmax]) (by
      rw [List.nil_append, List.length_append, length_direntBytes, length_direntBytes]
      omega)
  exact ⟨st', by rw [addDots, Exec.bind_of_ok hone, htwo]⟩

/-- There are inodes and blocks enough for the entries of `t`. -/
theorem addEntries_ok {t : HostDir} {cur : ℕ} {nlink : Int16} {bytes : List UInt8} (h : Good st)
    (hcur : Live st cur) (hf : FileAt st.img cur T_DIR nlink bytes.length bytes)
    (hinodes : st.freeinode + t.count ≤ inodeRoom) (hsmall : t.Small)
    (hlen : bytes.length + 16 * t.width ≤ MAXFILE * BSIZE)
    (hblocks : st.freeblock + t.blocks + refCount (blockCount (bytes.length + 16 * t.width)) ≤
      1024 + refCount (blockCount bytes.length)) :
    ∃ st', addEntries cur t st = .ok ((), st') := by
  induction t generalizing st cur bytes nlink with
  | nil => exact ⟨st, rfl⟩
  | file name data rest ih =>
    rw [addEntries]
    by_cases hh : hidden name = true
    · simp only [HostDir.count, HostDir.width, HostDir.blocks, hh, if_true, Nat.zero_add] at *
      exact ih h hcur hf hinodes hsmall.2 hlen hblocks
    have hh' : hidden name = false := by simpa using hh
    simp only [HostDir.count, HostDir.width, HostDir.blocks, hh', Bool.false_eq_true,
      if_false] at hinodes hlen hblocks
    rw [if_neg hh]
    have hmono : ∀ {a b : ℕ}, a ≤ b → refCount (blockCount a) ≤ refCount (blockCount b) :=
      fun hab => refCount_mono (blockCount_mono hab)
    have hR₁ := hmono (show bytes.length ≤ bytes.length + 16 by omega)
    have hR₂ := hmono (show bytes.length + 16 ≤ bytes.length + 16 * (1 + rest.width) by omega)
    have h0 : refCount (blockCount ([] : List UInt8).length) = 0 := rfl
    have hdata := hsmall.1 hh'
    obtain ⟨st₁, halloc⟩ := ialloc_ok T_FILE h (by omega)
    obtain ⟨-, hfi₁, hfb₁, hg₁, hf₁, hsame₁, hlow₁⟩ := ialloc_spec h (by omega) halloc
    have hlive₁ : Live st₁ st.freeinode := ⟨hcur.1.trans hcur.2.le, by omega⟩
    have hf₁' : FileAt st₁.img st.freeinode T_FILE 1 ([] : List UInt8).length [] := hf₁
    obtain ⟨st₂, hcopy⟩ := copyFile_ok data.length hg₁ hlive₁ hf₁' hdata
      (show st₁.freeblock + refCount (blockCount data.length) ≤ 1024 + _ by omega)
    obtain ⟨hstep₂, -, hfi₂, hcount₂⟩ := copyFile_spec hg₁ hlive₁ hf₁' le_rfl hcopy
    rw [List.nil_append] at hcount₂
    obtain ⟨hstep, hall⟩ := Step.fresh cur hsame₁
      (fun j hj => ⟨⟨hj.1, by have := hj.2; omega⟩, by have := hj.2; omega⟩) hstep₂ (by omega) hlow₁
    have hf₂ := hf.same (hall cur hcur)
    have hlen₃ : (bytes ++ direntBytes st.freeinode (entryName name)).length = bytes.length + 16 := by
      simp
    obtain ⟨st₃, hent⟩ := iappend_ok hstep.good (hstep.live hcur) hf₂
      (by rw [hlen₃]; omega) (by rw [hlen₃]; omega)
    obtain ⟨hstep₃, hf₃, hfi₃, hcount₃⟩ := iappend_spec hstep.good (hstep.live hcur) hf₂ hent
    rw [hlen₃] at hcount₃
    have hwidth : bytes.length + 16 + 16 * rest.width = bytes.length + 16 * (1 + rest.width) := by
      omega
    obtain ⟨st', hrest⟩ := ih hstep₃.good (hstep₃.live (hstep.live hcur)) hf₃ (by omega) hsmall.2
      (by rw [hlen₃]; omega) (by rw [hlen₃, hwidth]; omega)
    refine ⟨st', ?_⟩
    rw [Exec.bind_of_ok halloc, Exec.bind_of_ok hcopy, Exec.bind_of_ok hent, hrest]
  | dir name sub rest ihsub ih =>
    rw [addEntries]
    by_cases hh : hidden name = true
    · simp only [HostDir.count, HostDir.width, HostDir.blocks, hh, if_true, Nat.zero_add] at *
      exact ih h hcur hf hinodes hsmall.2 hlen hblocks
    have hh' : hidden name = false := by simpa using hh
    simp only [HostDir.count, HostDir.width, HostDir.blocks, HostDir.dirBlocks, hh',
      Bool.false_eq_true, if_false] at hinodes hlen hblocks
    rw [if_neg hh]
    have hmono : ∀ {a b : ℕ}, a ≤ b → refCount (blockCount a) ≤ refCount (blockCount b) :=
      fun hab => refCount_mono (blockCount_mono hab)
    have hR₁ := hmono (show bytes.length ≤ bytes.length + 16 by omega)
    have hR₂ := hmono (show bytes.length + 16 ≤ bytes.length + 16 * (1 + rest.width) by omega)
    have hR₃ := hmono (show 32 ≤ 16 * (sub.width + 2) by omega)
    have h32 : refCount (blockCount 32) = 1 := rfl
    obtain ⟨hsub₁, hsub₂⟩ := hsmall.1 hh'
    obtain ⟨st₁, halloc⟩ := ialloc_ok T_DIR h (by omega)
    obtain ⟨-, hfi₁, hfb₁, hg₁, hf₁, hsame₁, hlow₁⟩ := ialloc_spec h (by omega) halloc
    have hlive₁ : Live st₁ st.freeinode := ⟨hcur.1.trans hcur.2.le, by omega⟩
    obtain ⟨sta, hdots⟩ := addDots_ok cur hg₁ hlive₁ hf₁ (by omega)
    obtain ⟨hstepa, hfa, hfia, hfba⟩ := addDots_spec hg₁ hlive₁ hf₁ hdots
    have hla := hstepa.live hlive₁
    have hdlen : (dotBytes st.freeinode cur).length = 32 := by simp [dotBytes]
    have hdir : 32 + 16 * sub.width = 16 * (sub.width + 2) := by omega
    obtain ⟨stb, hsub⟩ := ihsub hstepa.good hla (hdlen ▸ hfa) (by omega) hsub₂
      (by rw [hdlen]; omega) (by rw [hdlen, hdir]; omega)
    have hb := addEntries_spec hstepa.good hla (hdlen ▸ hfa) (by omega) hsub
    have hlb := hb.step.live hla
    obtain ⟨st₂, hfix⟩ := fixSize_ok hb.step.good hlb
    obtain ⟨hstepc, -, hfic, hfbc⟩ := fixSize_spec hb.step.good hlb hb.dir hfix
    have hcountb := hb.count
    rw [List.length_append, length_entryBytes, HostDir.length_entries, hdlen, hdir] at hcountb
    have hfib := hb.freeinode
    have hstep₂ := (hstepa.trans hb.step).trans hstepc
    obtain ⟨hstep, hall⟩ := Step.fresh cur hsame₁
      (fun j hj => ⟨⟨hj.1, by have := hj.2; omega⟩, by have := hj.2; omega⟩) hstep₂ (by omega) hlow₁
    have hf₂ := hf.same (hall cur hcur)
    have hlen₃ : (bytes ++ direntBytes st.freeinode (entryName name)).length = bytes.length + 16 := by
      simp
    obtain ⟨st₃, hent⟩ := iappend_ok hstep.good (hstep.live hcur) hf₂
      (by rw [hlen₃]; omega) (by rw [hlen₃]; omega)
    obtain ⟨hstep₃, hf₃, hfi₃, hcount₃⟩ := iappend_spec hstep.good (hstep.live hcur) hf₂ hent
    rw [hlen₃] at hcount₃
    have hwidth : bytes.length + 16 + 16 * rest.width = bytes.length + 16 * (1 + rest.width) := by
      omega
    obtain ⟨st', hrest⟩ := ih hstep₃.good (hstep₃.live (hstep.live hcur)) hf₃ (by omega) hsmall.2
      (by rw [hlen₃]; omega) (by rw [hlen₃, hwidth]; omega)
    refine ⟨st', ?_⟩
    rw [Exec.bind_of_ok halloc, Exec.bind_of_ok hdots, Exec.bind_of_ok hsub, Exec.bind_of_ok hfix,
      Exec.bind_of_ok hent, hrest]

theorem main_ok {t : HostDir} (hinodes : 2 + t.count ≤ inodeRoom) (hsmall : t.Small)
    (hwidth : 16 * (t.width + 2) ≤ MAXFILE * BSIZE) (hblocks : firstData + t.total ≤ 1024) :
    ∃ st, main t State.empty = .ok ((), st) := by
  obtain ⟨st₀, hmkfs, hg₀, hfi₀, hfb₀, himg₀, -⟩ := mkfs_spec
  obtain ⟨st₁, halloc⟩ := ialloc_ok T_DIR hg₀ (by rw [hfi₀, inodeRoom]; omega)
  obtain ⟨-, hfi₁, hfb₁, hg₁, hf₁, -, hlow₁⟩ :=
    ialloc_spec hg₀ (by rw [hfi₀, inodeRoom]; omega) halloc
  rw [hfi₀] at halloc hf₁ hfi₁
  have hlive₁ : Live st₁ 1 := ⟨le_rfl, by omega⟩
  rw [HostDir.total, HostDir.dirBlocks] at hblocks
  have h32 : refCount (blockCount 32) = 1 := rfl
  have hR : refCount (blockCount 32) ≤ refCount (blockCount (16 * (t.width + 2))) :=
    refCount_mono (blockCount_mono (by omega))
  obtain ⟨st₂, hdots⟩ := addDots_ok 1 hg₁ hlive₁ hf₁ (by omega)
  obtain ⟨hstep₂, hf₂, hfi₂, hfb₂⟩ := addDots_spec hg₁ hlive₁ hf₁ hdots
  have hl₂ := hstep₂.live hlive₁
  have hdlen : (dotBytes 1 1).length = 32 := by simp [dotBytes]
  have hdir : 32 + 16 * t.width = 16 * (t.width + 2) := by omega
  obtain ⟨st₃, hents⟩ := addEntries_ok hstep₂.good hl₂ (hdlen ▸ hf₂) (by omega) hsmall
    (by rw [hdlen]; omega) (by rw [hdlen, hdir]; omega)
  have h₃ := addEntries_spec hstep₂.good hl₂ (hdlen ▸ hf₂) (by omega) hents
  obtain ⟨st₄, hfix⟩ := fixSize_ok h₃.step.good (h₃.step.live hl₂)
  obtain ⟨hstep₄, -, -, -⟩ := fixSize_spec h₃.step.good (h₃.step.live hl₂) h₃.dir hfix
  have haddDir : addDir t 1 1 st₁ = .ok ((), st₄) := by
    rw [addDir, Exec.bind_of_ok hdots, Exec.bind_of_ok hents, hfix]
  have hhigh := hstep₄.good.high
  refine ⟨st₄.store (ninodes / IPB + 3) (bitmap st₄.freeblock), ?_⟩
  rw [main, Exec.bind_of_ok hmkfs, Exec.bind_of_ok halloc, if_pos (show 1 = ROOTINO from rfl),
    Exec.bind_of_ok haddDir, Exec.bind_of_ok Exec.get_run, balloc, hstep₄.good.used,
    if_pos (by omega), wsect_run]

end Lainos.Mkfs
