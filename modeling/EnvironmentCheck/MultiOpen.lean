import EnvironmentCheck.CommonFiles
import Mathlib.Algebra.Order.Ring.Int

namespace EnvironmentCheck

open LineReading StringConversion

namespace MultiOpen

/-- What `ls` prints: nothing, or entries, the first of which has a name. -/
structure Listing where
  output : List UInt8
  named : ∀ b ∈ output.head?, b ≠ 0 ∧ b ≠ newline

/-- A device with its `ls`; the process has this command line, where its file opens. -/
structure Device where
  lsExists : Bool
  cmdline : Option (List UInt8)
  popen : List UInt8 → Listing

/-- `sprintf` to a buffer; none is a text that does not fit with the NUL after it. -/
def sprintf (size : ℕ) (text : List UInt8) : Option (List UInt8) :=
  if text.length < size then some text else none

def lsCommand (name : List UInt8) : List UInt8 :=
  ascii "ls /data/data/" ++ name

/-- `COMMON::getPackageName` of the process itself. -/
def getPackageName (device : Device) : List UInt8 :=
  readFile device.cmdline

def checkMoreOpenByUid (device : Device) : Option ℤ :=
  if device.lsExists then do
    let path ← sprintf 256 (lsCommand (getPackageName device))
    let result := shellExecute (device.popen path).output
    if result = [] then return 1 else return 0
  else some 0

/-- `getPackageName` of check_multi_open.cpp, which reads into a buffer of 64 bytes. -/
def readPackageName (device : Device) : Option (List UInt8) :=
  device.cmdline.map fun content => terminated (fgets newline 63 content).1

def moreOpenCheck (device : Device) : Option ℤ :=
  if device.lsExists then
    match readPackageName device with
    | none => some 2
    | some packageName => do
      let path ← sprintf 128 (lsCommand packageName)
      let buff := (fgets newline 31 (device.popen path).output).1
      if buff = [] then return 1
      if terminated buff = [] then return 1 else return 0
  else some 2

/-- The check that asks the context for the package's name. -/
def openCheckExt (device : Device) (packageName : Option (List UInt8)) : Option ℤ :=
  if device.lsExists then
    match packageName with
    | none => some (-1)
    | some name => do
      let path ← sprintf 256 (lsCommand name)
      let buff := (fgets newline 31 (device.popen path).output).1
      if buff = [] then return 1
      if terminated buff ≠ [] then return 0 else return 1
  else some (-1)

/-- A letter, a digit, an underscore or a dot. -/
def legal (b : UInt8) : Prop :=
  (97 ≤ b ∧ b ≤ 122) ∨ (65 ≤ b ∧ b ≤ 90) ∨ (48 ≤ b ∧ b ≤ 57) ∨ b = 95 ∨ b = 46

instance (b : UInt8) : Decidable (legal b) :=
  inferInstanceAs (Decidable (_ ∨ _ ∨ _ ∨ _ ∨ _))

/-- An app on a device that has `ls`, which lists the data of its package. The process is named
after the package, with a suffix or without one, and NULs follow the name. -/
structure NormalApp where
  pkg : List UInt8
  pkg_legal : ∀ b ∈ pkg, legal b
  pkg_length : pkg.length ≤ 223
  suffix : Option (List UInt8)
  suffix_legal : ∀ s ∈ suffix, ∀ b ∈ s, legal b
  nuls : ℕ
  popen : List UInt8 → Listing
  listed : (popen (lsCommand pkg)).output ≠ []

def NormalApp.processName (app : NormalApp) : List UInt8 :=
  match app.suffix with
  | none => app.pkg
  | some suffix => app.pkg ++ 58 :: suffix

def NormalApp.device (app : NormalApp) : Device where
  lsExists := true
  cmdline := some (app.processName ++ List.replicate (app.nuls + 1) 0)
  popen := app.popen

/-- No check says that the app was opened twice, and none overruns its buffer. -/
def NoneAccuses (app : NormalApp) : Prop :=
  ∀ r ∈ [checkMoreOpenByUid app.device, moreOpenCheck app.device,
    openCheckExt app.device (some app.pkg)], ∃ v, r = some v ∧ v ≠ 1

/-! ### What the buffers hold -/

theorem Listing.eq_nil_or (listing : Listing) :
    listing.output = [] ∨ ∃ b rest, listing.output = b :: rest ∧ b ≠ 0 ∧ b ≠ newline := by
  obtain ⟨output, named⟩ := listing
  cases output with
  | nil => exact Or.inl rfl
  | cons b rest => exact Or.inr ⟨b, rest, rfl, named b rfl⟩

/-- A first byte that is neither NUL nor the end of a line is read. -/
theorem fgets_head {b : UInt8} (hb : b ≠ newline) (room : ℕ) (rest : List UInt8) :
    fgets newline (room + 1) (b :: rest) =
      (b :: (fgets newline room rest).1, (fgets newline room rest).2) := by
  rw [fgets, if_neg hb]

theorem terminated_cons {b : UInt8} (hb : b ≠ 0) (rest : List UInt8) :
    terminated (b :: rest) = b :: terminated rest := by
  rw [terminated, List.takeWhile_cons_of_pos (by simpa using hb)]
  rfl

theorem shellExecute_eq_nil_iff (listing : Listing) :
    shellExecute listing.output = [] ↔ listing.output = [] := by
  obtain h | ⟨b, rest, h, hb, hnl⟩ := listing.eq_nil_or
  · rw [h]
    exact iff_of_true rfl rfl
  · rw [h]
    refine iff_of_false ?_ (List.cons_ne_nil b rest)
    have hpieces := @pieces_of_ne_nil _ _ newline 127 (b :: rest) (by decide)
      (List.cons_ne_nil b rest)
    rw [fgets_head hnl] at hpieces
    change dropNewline ((pieces newline 127 (b :: rest)).flatMap terminated) ≠ []
    rw [hpieces, List.flatMap_cons, terminated_cons hb, List.cons_append, Ne, dropNewline_eq_nil_iff]
    rintro (heq | heq)
    · cases heq
    · exact hnl (List.cons.inj heq).1

theorem fgets_listing (listing : Listing) (room : ℕ) :
    ((fgets newline (room + 1) listing.output).1 = [] ↔ listing.output = []) ∧
      (listing.output ≠ [] → terminated (fgets newline (room + 1) listing.output).1 ≠ []) := by
  obtain h | ⟨b, rest, h, hb, hnl⟩ := listing.eq_nil_or
  · rw [h]
    exact ⟨iff_of_true rfl rfl, fun hne => absurd rfl hne⟩
  · rw [h, fgets_head hnl, terminated_cons hb]
    exact ⟨iff_of_false (List.cons_ne_nil _ _) (List.cons_ne_nil _ _),
      fun _ => List.cons_ne_nil _ _⟩

theorem terminated_append_nul {p : List UInt8} (h : 0 ∉ p) (rest : List UInt8) :
    terminated (p ++ 0 :: rest) = p := by
  have hp : ∀ b ∈ p, decide (b ≠ 0) = true := fun b hb => by
    simpa using ne_of_mem_of_not_mem hb h
  rw [terminated, List.takeWhile_append_of_pos hp]
  simp

theorem terminated_of_forall {s : List UInt8} (h : ∀ b ∈ s, b = 0) : terminated s = [] := by
  cases s with
  | nil => rfl
  | cons b s => simp [terminated, h b List.mem_cons_self]

theorem flatMap_pieces_nuls {room : ℕ} (hroom : 0 < room) (n : ℕ) :
    (pieces newline room (List.replicate n 0)).flatMap terminated = [] := by
  rw [List.flatMap_eq_nil_iff]
  intro p hp
  apply terminated_of_forall
  intro b hb
  exact List.eq_of_mem_replicate (mem_of_mem_pieces hroom hp hb)

theorem newline_not_mem_cmdline {p : List UInt8} (hnl : newline ∉ p) (n : ℕ) :
    newline ∉ p ++ List.replicate (n + 1) 0 := by
  rw [List.mem_append, not_or]
  refine ⟨hnl, fun h => ?_⟩
  exact absurd (List.eq_of_mem_replicate h) (by decide)

/-- A buffer with room for the name takes a NUL as well. -/
theorem take_cmdline {room : ℕ} {p : List UInt8} (h : p.length < room) (n : ℕ) :
    (p ++ List.replicate (n + 1) 0).take room =
      p ++ 0 :: List.replicate (min (room - p.length - 1) n) 0 := by
  have hmin : min (room - p.length) (n + 1) = min (room - p.length - 1) n + 1 := by omega
  rw [List.take_append, List.take_of_length_le h.le, List.take_replicate, hmin,
    List.replicate_succ]

/-- However the buffer cuts a name with NULs after it, the name is put together again. -/
theorem flatMap_pieces_name {room : ℕ} (hroom : 0 < room) {p : List UInt8} (hp : 0 ∉ p)
    (hnl : newline ∉ p) (n : ℕ) :
    (pieces newline room (p ++ List.replicate (n + 1) 0)).flatMap terminated = p := by
  induction hlen : p.length using Nat.strong_induction_on generalizing p with
  | _ k ih =>
    have hne : p ++ List.replicate (n + 1) 0 ≠ [] := by simp
    rw [pieces_of_ne_nil newline hroom hne, List.flatMap_cons]
    by_cases hle : room ≤ p.length
    · have hdrop : (p.drop room).length < k := by
        rw [List.length_drop]
        omega
      rw [fgets_within hnl hle, ih _ hdrop (fun h => hp (List.mem_of_mem_drop h))
        (fun h => hnl (List.mem_of_mem_drop h)) rfl,
        terminated_of_nulFree fun h => hp (List.mem_of_mem_take h), List.take_append_drop]
    · have hlt : p.length < room := Nat.lt_of_not_le hle
      rw [fgets_of_not_mem (newline_not_mem_cmdline hnl n), take_cmdline hlt, List.drop_append,
        List.drop_eq_nil_of_le hlt.le, List.drop_replicate, List.nil_append,
        flatMap_pieces_nuls hroom, List.append_nil]
      exact terminated_append_nul hp _

theorem legal_ne {b : UInt8} (h : legal b ∨ b = 58) : b ≠ 0 ∧ b ≠ newline := by
  constructor
  · rintro rfl
    revert h
    decide
  · rintro rfl
    revert h
    decide

variable (app : NormalApp)

theorem NormalApp.legal_processName : ∀ b ∈ app.processName, legal b ∨ b = 58 := by
  intro b hb
  rw [processName] at hb
  cases hsuffix : app.suffix with
  | none =>
    rw [hsuffix] at hb
    exact Or.inl (app.pkg_legal b hb)
  | some suffix =>
    rw [hsuffix] at hb
    obtain hb | hb := List.mem_append.mp hb
    · exact Or.inl (app.pkg_legal b hb)
    · obtain rfl | hb := List.mem_cons.mp hb
      · exact Or.inr rfl
      · exact Or.inl (app.suffix_legal suffix hsuffix b hb)

theorem NormalApp.processName_nulFree : 0 ∉ app.processName := fun h =>
  (legal_ne (app.legal_processName 0 h)).1 rfl

theorem NormalApp.processName_newlineFree : newline ∉ app.processName := fun h =>
  (legal_ne (app.legal_processName newline h)).2 rfl

theorem getPackageName_device : getPackageName app.device = app.processName := by
  change dropNewline ((pieces newline 511 (app.processName ++ _)).flatMap terminated) = _
  rw [flatMap_pieces_name (by decide) app.processName_nulFree app.processName_newlineFree]
  apply dropNewline_of_ne
  intro h
  exact app.processName_newlineFree (List.mem_of_getLast? h)

theorem readPackageName_device :
    readPackageName app.device = some (app.processName.take 63) := by
  have hall : newline ∉ app.processName ++ List.replicate (app.nuls + 1) 0 :=
    newline_not_mem_cmdline app.processName_newlineFree app.nuls
  change some (terminated (fgets newline 63 (app.processName ++ _)).1) = _
  rw [fgets_of_not_mem hall]
  by_cases hle : 63 ≤ app.processName.length
  · rw [List.take_append_of_le_length hle]
    rw [terminated_of_nulFree fun h => app.processName_nulFree (List.mem_of_mem_take h)]
  · rw [take_cmdline (by omega), terminated_append_nul app.processName_nulFree,
      List.take_of_length_le (by omega)]

theorem lsCommand_length (name : List UInt8) : (lsCommand name).length = name.length + 14 := by
  rw [lsCommand, List.length_append, Nat.add_comm]
  rfl

/-! ### The three checks -/

theorem checkMoreOpenByUid_device : (∃ v, checkMoreOpenByUid app.device = some v ∧ v ≠ 1) ↔
    app.processName.length ≤ 241 ∧ (app.popen (lsCommand app.processName)).output ≠ [] := by
  have hdevice : checkMoreOpenByUid app.device = (do
      let path ← sprintf 256 (lsCommand (getPackageName app.device))
      if shellExecute (app.popen path).output = [] then return 1 else return 0) := rfl
  rw [hdevice, getPackageName_device, sprintf, lsCommand_length]
  by_cases hlen : app.processName.length ≤ 241
  · rw [if_pos (by omega)]
    by_cases hshown : (app.popen (lsCommand app.processName)).output = []
    · simp [shellExecute_eq_nil_iff, hshown]
    · simp [shellExecute_eq_nil_iff, hshown, hlen]
  · rw [if_neg (by omega)]
    simp [hlen]

theorem popened_iff (listing : Listing) : (∃ v : ℤ,
    (if (fgets newline 31 listing.output).1 = [] then some 1
      else if terminated (fgets newline 31 listing.output).1 = [] then some 1 else some 0) =
        some v ∧ v ≠ 1) ↔ listing.output ≠ [] := by
  obtain ⟨hnil, hne⟩ := fgets_listing listing 30
  by_cases h : listing.output = []
  · rw [if_pos (hnil.mpr h)]
    simp [h]
  · rw [if_neg (fun h' => h (hnil.mp h')), if_neg (hne h)]
    simp [h]

theorem moreOpenCheck_device : (∃ v, moreOpenCheck app.device = some v ∧ v ≠ 1) ↔
    (app.popen (lsCommand (app.processName.take 63))).output ≠ [] := by
  have hfits : (lsCommand (app.processName.take 63)).length < 128 := by
    rw [lsCommand_length, List.length_take]
    omega
  rw [← popened_iff, moreOpenCheck, readPackageName_device]
  simp only [NormalApp.device, if_true, sprintf, hfits]
  rfl

theorem openCheckExt_device : ∃ v, openCheckExt app.device (some app.pkg) = some v ∧ v ≠ 1 := by
  have hfits : (lsCommand app.pkg).length < 256 := by
    have hlen := app.pkg_length
    rw [lsCommand_length]
    omega
  obtain ⟨hnil, hne⟩ := fgets_listing (app.popen (lsCommand app.pkg)) 30
  have hread := mt hnil.mp app.listed
  have hshown := hne app.listed
  refine ⟨0, ?_, zero_ne_one⟩
  simp [openCheckExt, NormalApp.device, sprintf, hfits, hread, hshown]

theorem noneAccuses_iff : NoneAccuses app ↔ app.processName.length ≤ 241 ∧
    (app.popen (lsCommand app.processName)).output ≠ [] ∧
    (app.popen (lsCommand (app.processName.take 63))).output ≠ [] := by
  rw [← moreOpenCheck_device, ← and_assoc, ← checkMoreOpenByUid_device]
  simp only [NoneAccuses, List.forall_mem_cons, List.not_mem_nil, openCheckExt_device]
  simp

theorem forall_legal {s : List UInt8} (h : s.all (legal ·) = true) : ∀ b ∈ s, legal b := by
  simpa using h

-- the name of a second process is no directory

def listPackage (path : List UInt8) : List UInt8 :=
  if path = lsCommand (ascii "com.app") then ascii "files\n" else []

theorem listPackage_named (path : List UInt8) :
    ∀ b ∈ (listPackage path).head?, b ≠ 0 ∧ b ≠ newline := by
  unfold listPackage
  split
  · rintro b ⟨⟩
    decide
  · rintro b ⟨⟩

theorem comApp_legal : ∀ b ∈ ascii "com.app", legal b :=
  forall_legal (by decide)

theorem remote_legal : ∀ s ∈ some (ascii "remote"), ∀ b ∈ s, legal b := by
  rintro _ ⟨⟩
  exact forall_legal (by decide)

theorem comApp_listed : listPackage (lsCommand (ascii "com.app")) ≠ [] := by
  decide

theorem comApp_length : (ascii "com.app").length ≤ 223 := by
  decide

def remoteApp : NormalApp where
  pkg := ascii "com.app"
  pkg_legal := comApp_legal
  pkg_length := comApp_length
  suffix := some (ascii "remote")
  suffix_legal := remote_legal
  nuls := 0
  popen path := ⟨listPackage path, listPackage_named path⟩
  listed := comApp_listed

theorem remoteApp_accused : ¬ NoneAccuses remoteApp := by
  intro h
  obtain ⟨v, hv, hne⟩ := h (moreOpenCheck remoteApp.device) (by simp)
  have hone : moreOpenCheck remoteApp.device = some 1 := by decide
  rw [hone] at hv
  exact hne (Option.some.inj hv).symm

end MultiOpen

end EnvironmentCheck
