import EnvironmentCheck.XposedJars

namespace EnvironmentCheck

namespace DeviceLocale

open LineReading XposedJars

inductive EmulatorResult
  | maybeEmulator
  | emulator
  | unknown
  deriving DecidableEq

structure EmulatorCheckResult where
  result : EmulatorResult
  value : Option (List Char)
  deriving DecidableEq

structure RomInfo where
  name : List Char
  version : List Char

/-- What the checks read: properties by three ways, fields of `Build`, files and the ROM's bean. -/
structure Device where
  property : String → List Char
  shellProperty : String → List Char
  buildProperty : String → List Char
  reflectedProperty : String → List Char
  sdkInt : ℕ
  brand : List Char
  manufacturer : List Char
  display : List Char
  cgroup : List Char
  maps : List Char
  bean : Option RomInfo

section

variable (fold : Char → Char) (locale : Locale) (device : Device)

/-! ### The emulator's features -/

def getProperty (propName : String) : Option (List Char) :=
  if device.property propName = [] then none else some (device.property propName)

def feature (value : Option (List Char)) (isEmulator : List Char → Bool) : EmulatorCheckResult :=
  match value with
  | none => ⟨.maybeEmulator, none⟩
  | some text => ⟨if isEmulator text then .emulator else .unknown, some text⟩

def containsAny (literals : List String) (text : List Char) : Bool :=
  literals.any fun literal => literal.toList <:+: text

def hardwareNames : List String :=
  ["ttvm", "nox", "cancro", "intel", "vbox", "vbox86", "android_x86"]

def checkFeaturesByHardware : EmulatorCheckResult :=
  feature (getProperty device "ro.hardware") fun hardware =>
    hardwareNames.any fun name => lowercase fold locale hardware = name.toList

def checkFeaturesByFlavor : EmulatorCheckResult :=
  feature (getProperty device "ro.build.flavor") fun flavor =>
    containsAny ["vbox", "sdk_gphone"] (lowercase fold locale flavor)

def checkFeaturesByModel : EmulatorCheckResult :=
  feature (getProperty device "ro.product.model") fun model =>
    containsAny ["google_sdk", "emulator", "android sdk built for x86"]
      (lowercase fold locale model)

def checkFeaturesByManufacturer : EmulatorCheckResult :=
  feature (getProperty device "ro.product.manufacturer") fun manufacturer =>
    containsAny ["genymotion", "netease"] (lowercase fold locale manufacturer)

def checkFeaturesByBoard : EmulatorCheckResult :=
  feature (getProperty device "ro.product.board") fun board =>
    containsAny ["android", "goldfish"] (lowercase fold locale board)

def checkFeaturesByPlatform : EmulatorCheckResult :=
  feature (getProperty device "ro.board.platform") fun platform =>
    containsAny ["android"] (lowercase fold locale platform)

def checkFeaturesByBaseBand : EmulatorCheckResult :=
  feature (getProperty device "gsm.version.baseband") fun baseBandVersion =>
    containsAny ["1.0.0.0"] baseBandVersion

def checkFeaturesByCgroup : EmulatorCheckResult :=
  ⟨.unknown, some device.cgroup⟩

/-! ### The ROM's name -/

structure Rom where
  name : String
  aliases : List String
  versionProperty : String

def Rom.names (rom : Rom) : List String :=
  rom.name :: rom.aliases

-- in the order in which `getRomInfo` tries them
def roms : List Rom :=
  [⟨"huawei", [], "ro.build.version.emui"⟩,
    ⟨"vivo", [], "ro.vivo.os.build.display.id"⟩,
    ⟨"xiaomi", [], "ro.build.version.incremental"⟩,
    ⟨"oppo", [], "ro.build.version.opporom"⟩,
    ⟨"leeco", ["letv"], "ro.letv.release.version"⟩,
    ⟨"360", ["qiku"], "ro.build.uiversion"⟩,
    ⟨"zte", [], "ro.build.MiFavor_version"⟩,
    ⟨"oneplus", [], "ro.rom.version"⟩,
    ⟨"nubia", [], "ro.build.rom.id"⟩,
    ⟨"coolpad", ["yulong"], ""⟩,
    ⟨"lg", ["lge"], ""⟩,
    ⟨"google", [], ""⟩,
    ⟨"samsung", [], ""⟩,
    ⟨"meizu", [], ""⟩,
    ⟨"lenovo", [], ""⟩,
    ⟨"smartisan", ["deltainno"], ""⟩,
    ⟨"htc", [], ""⟩,
    ⟨"sony", [], ""⟩,
    ⟨"gionee", ["amigo"], ""⟩,
    ⟨"motorola", [], ""⟩]

/-- `getBrand` and `getManufacturer`. -/
def orUnknown (field : List Char) : List Char :=
  if field = [] then "unknown".toList else lowercase fold locale field

def isRightRom (brand manufacturer : List Char) (rom : Rom) : Bool :=
  rom.names.any fun name => name.toList <:+: brand ∨ name.toList <:+: manufacturer

def getSystemProperty (name : String) : List Char :=
  if device.shellProperty name ≠ [] then device.shellProperty name
  else if device.buildProperty name ≠ [] then device.buildProperty name
  else if device.sdkInt < 28 then device.reflectedProperty name
  else []

def getRomVersion (propertyName : String) : List Char :=
  let ret := if propertyName = "" then [] else getSystemProperty device propertyName
  let ret := if (ret = [] ∨ ret = "unknown".toList) ∧ device.display ≠ [] then
    lowercase fold locale device.display else ret
  if ret = [] then "unknown".toList else ret

/-- The part of a version after its first underscore; blank parts at the end do not count. -/
def afterUnderscore (version : List Char) : List Char :=
  match (version.splitOn '_').rdropWhile (· = []) with
  | _ :: part :: _ => part
  | _ => version

def getRomInfo : RomInfo :=
  match device.bean with
  | some bean => bean
  | none =>
    let manufacturer := orUnknown fold locale device.manufacturer
    match roms.find? (isRightRom (orUnknown fold locale device.brand) manufacturer) with
    | some rom =>
      let version := getRomVersion fold locale device rom.versionProperty
      ⟨rom.name.toList, if rom.name = "huawei" then afterUnderscore version else version⟩
    | none => ⟨manufacturer, getRomVersion fold locale device ""⟩

/-- The flag that `chargeXposedJars` leaves for Frida. -/
def fridaTest : Bool :=
  match chargeXposedJars fold locale device.maps fresh with
  | .ok _ s => s.beans.isCheckFridaJars
  | .error _ s => s.beans.isCheckFridaJars

structure Verdicts where
  hardware : EmulatorCheckResult
  flavor : EmulatorCheckResult
  model : EmulatorCheckResult
  manufacturer : EmulatorCheckResult
  board : EmulatorCheckResult
  platform : EmulatorCheckResult
  baseBand : EmulatorCheckResult
  cgroup : EmulatorCheckResult
  romName : List Char
  frida : Bool

def verdicts : Verdicts where
  hardware := checkFeaturesByHardware fold locale device
  flavor := checkFeaturesByFlavor fold locale device
  model := checkFeaturesByModel fold locale device
  manufacturer := checkFeaturesByManufacturer fold locale device
  board := checkFeaturesByBoard fold locale device
  platform := checkFeaturesByPlatform fold locale device
  baseBand := checkFeaturesByBaseBand device
  cgroup := checkFeaturesByCgroup device
  romName := (getRomInfo fold locale device).name
  frida := fridaTest fold locale device

/-! ### Where a literal is found -/

/-- One of the literals stands in the text, whatever its case, and without an I. -/
def FoundWithoutI (literals : List String) (text : List Char) : Prop :=
  ∃ literal ∈ literals, ∃ piece, piece <:+: text ∧
    piece.map (caseless fold) = literal.toList ∧ 'I' ∉ piece

/-- One of the literals stands in the text, whatever its case, and with no dotted I before its
end. -/
def FoundUndotted (literals : List String) (text : List Char) : Prop :=
  ∃ literal ∈ literals, ∃ piece, piece <:+: text ∧
    piece.map (caseless fold) = literal.toList ∧ 'İ' ∉ piece.dropLast

def SpeltEvenly (literals : List String) (text : List Char) : Prop :=
  FoundWithoutI fold literals text ↔ FoundUndotted fold literals text

def SpeltEvenlyWhole (literals : List String) (text : List Char) : Prop :=
  (∃ literal ∈ literals, text.map (caseless fold) = literal.toList ∧ 'I' ∉ text) ↔
    ∃ literal ∈ literals, text.map (caseless fold) = literal.toList ∧ 'İ' ∉ text

def RomWithoutI (brand manufacturer : List Char) (rom : Rom) : Prop :=
  FoundWithoutI fold rom.names brand ∨ FoundWithoutI fold rom.names manufacturer

def RomUndotted (brand manufacturer : List Char) (rom : Rom) : Prop :=
  FoundUndotted fold rom.names brand ∨ FoundUndotted fold rom.names manufacturer

/-- The first ROM that is found under one of the mappings is found under both; where there is none,
the manufacturer has no such letter. -/
def SameRom (brand manufacturer : List Char) : List Rom → Prop
  | [] => 'I' ∉ manufacturer ∧ 'İ' ∉ manufacturer
  | rom :: rest =>
    (RomWithoutI fold brand manufacturer rom ∧ RomUndotted fold brand manufacturer rom) ∨
      (¬ RomWithoutI fold brand manufacturer rom ∧ ¬ RomUndotted fold brand manufacturer rom ∧
        SameRom brand manufacturer rest)

/-- Every literal that stands in a text stands there in a spelling that both mappings read. -/
structure LanguageFree : Prop where
  hardware : SpeltEvenlyWhole fold hardwareNames (device.property "ro.hardware")
  flavor : SpeltEvenly fold ["vbox", "sdk_gphone"] (device.property "ro.build.flavor")
  model : SpeltEvenly fold ["google_sdk", "emulator", "android sdk built for x86"]
    (device.property "ro.product.model")
  manufacturer : SpeltEvenly fold ["genymotion", "netease"] (device.property "ro.product.manufacturer")
  board : SpeltEvenly fold ["android", "goldfish"] (device.property "ro.product.board")
  platform : SpeltEvenly fold ["android"] (device.property "ro.board.platform")
  rom : device.bean = none → SameRom fold device.brand device.manufacturer roms
  frida : (∃ line ∈ readLines '\n' '\r' device.maps, FoundWithoutI fold ["frida"] line) ↔
    ∃ line ∈ readLines '\n' '\r' device.maps, FoundUndotted fold ["frida"] line

end

variable {fold : Char → Char} {locale l₁ l₂ : Locale} {literals : List String} {text : List Char}

theorem containsAny_turkic (hl : ∀ l ∈ literals, Plain l.toList) (h : locale.Turkic) :
    containsAny literals (lowercase fold locale text) = true ↔
      FoundWithoutI fold literals text := by
  simp only [containsAny, List.any_eq_true, decide_eq_true_eq, FoundWithoutI]
  apply exists_congr
  intro literal
  apply and_congr_right
  intro hmem
  exact infix_turkic_iff (hl literal hmem) h

theorem containsAny_plain (hl : ∀ l ∈ literals, Plain l.toList) (h : ¬ locale.Turkic) :
    containsAny literals (lowercase fold locale text) = true ↔
      FoundUndotted fold literals text := by
  simp only [containsAny, List.any_eq_true, decide_eq_true_eq, FoundUndotted]
  apply exists_congr
  intro literal
  apply and_congr_right
  intro hmem
  exact infix_plain_iff (hl literal hmem) h

theorem lowercase_congr (h : l₁.Turkic ↔ l₂.Turkic) :
    lowercase fold l₁ = lowercase fold l₂ := by
  funext text
  unfold lowercase lowercaseChar
  simp only [h]

theorem feature_eq_iff (text : List Char) (p q : List Char → Bool) :
    feature (some text) p = feature (some text) q ↔ p text = q text := by
  cases hp : p text <;> cases hq : q text <;> simp [feature, hp, hq]

/-- A test for literals gives the same under both mappings where they are spelt evenly. -/
theorem feature_contains_iff (device : Device) (propName : String)
    (hl : ∀ l ∈ literals, Plain l.toList) (h₁ : l₁.Turkic) (h₂ : ¬ l₂.Turkic) :
    feature (getProperty device propName)
        (fun text => containsAny literals (lowercase fold l₁ text)) =
      feature (getProperty device propName)
        (fun text => containsAny literals (lowercase fold l₂ text)) ↔
      SpeltEvenly fold literals (device.property propName) := by
  have hboth (text : List Char) : containsAny literals (lowercase fold l₁ text) =
      containsAny literals (lowercase fold l₂ text) ↔ SpeltEvenly fold literals text := by
    rw [Bool.eq_iff_iff, containsAny_turkic hl h₁, containsAny_plain hl h₂, SpeltEvenly]
  by_cases hprop : device.property propName = []
  · rw [getProperty, if_pos hprop, hprop, ← hboth]
    exact iff_of_true rfl rfl
  · rw [getProperty, if_neg hprop, feature_eq_iff, hboth]

theorem feature_equals_iff (device : Device) (propName : String)
    (hl : ∀ l ∈ literals, Plain l.toList) (h₁ : l₁.Turkic) (h₂ : ¬ l₂.Turkic) :
    feature (getProperty device propName)
        (fun text => literals.any fun name => lowercase fold l₁ text = name.toList) =
      feature (getProperty device propName)
        (fun text => literals.any fun name => lowercase fold l₂ text = name.toList) ↔
      SpeltEvenlyWhole fold literals (device.property propName) := by
  have hboth (text : List Char) :
      (literals.any fun name => lowercase fold l₁ text = name.toList) =
        (literals.any fun name => lowercase fold l₂ text = name.toList) ↔
      SpeltEvenlyWhole fold literals text := by
    rw [Bool.eq_iff_iff, SpeltEvenlyWhole]
    simp only [List.any_eq_true, decide_eq_true_eq]
    apply iff_congr
    · apply exists_congr
      intro literal
      exact and_congr_right fun hmem => eq_turkic_iff (hl literal hmem) h₁
    · apply exists_congr
      intro literal
      exact and_congr_right fun hmem => eq_plain_iff (hl literal hmem) h₂
  by_cases hprop : device.property propName = []
  · rw [getProperty, if_pos hprop, hprop, ← hboth]
    exact iff_of_true rfl rfl
  · rw [getProperty, if_neg hprop, feature_eq_iff, hboth]

/-! ### The test for Frida -/

theorem fridaTest_eq (fold : Char → Char) (locale : Locale) (device : Device) :
    fridaTest fold locale device =
      decide (∃ line ∈ readLines '\n' '\r' device.maps, hasFrida fold locale line) := by
  obtain ⟨s, hrun, hbeans⟩ := @chargeXposedJars_ends fold locale device.maps fresh
  rw [visitAll_beans] at hbeans
  rw [fridaTest, hrun]
  simp [hbeans, fresh]

theorem hasFrida_iff (fold : Char → Char) (locale : Locale) (line : List Char) :
    hasFrida fold locale line ↔ containsAny ["frida"] (lowercase fold locale line) = true := by
  simp [hasFrida, containsAny]

theorem fridaTest_same_iff (device : Device) (h₁ : l₁.Turkic) (h₂ : ¬ l₂.Turkic) :
    fridaTest fold l₁ device = fridaTest fold l₂ device ↔
      ((∃ line ∈ readLines '\n' '\r' device.maps, FoundWithoutI fold ["frida"] line) ↔
        ∃ line ∈ readLines '\n' '\r' device.maps, FoundUndotted fold ["frida"] line) := by
  have hl : ∀ l ∈ ["frida"], Plain l.toList := by decide
  rw [fridaTest_eq, fridaTest_eq, decide_eq_decide]
  simp only [hasFrida_iff, containsAny_turkic hl h₁, containsAny_plain hl h₂]

/-! ### The test for a ROM -/

theorem plain_roms : ∀ rom ∈ roms, ∀ name ∈ rom.names, Plain name.toList := by
  decide

theorem not_infix_unknown :
    ∀ rom ∈ roms, ∀ name ∈ rom.names, ¬ name.toList <:+: "unknown".toList := by
  decide

theorem nodup_roms : (roms.map Rom.name).Nodup := by
  decide

theorem isRightRom_eq (brand manufacturer : List Char) (rom : Rom) :
    isRightRom brand manufacturer rom =
      (containsAny rom.names brand || containsAny rom.names manufacturer) := by
  rw [Bool.eq_iff_iff]
  simp only [isRightRom, containsAny, Bool.or_eq_true, List.any_eq_true, decide_eq_true_eq,
    and_or_left, exists_or]

theorem containsAny_orUnknown {rom : Rom} (hrom : rom ∈ roms) (field : List Char) :
    containsAny rom.names (orUnknown fold locale field) =
      containsAny rom.names (lowercase fold locale field) := by
  by_cases hfield : field = []
  · have hnone (text : List Char) (h : ∀ name ∈ rom.names, ¬ name.toList <:+: text) :
        containsAny rom.names text = false := by
      simpa [containsAny] using h
    rw [orUnknown, if_pos hfield, hfield, hnone _ (not_infix_unknown rom hrom), hnone]
    intro name hname hinfix
    exact (plain_roms rom hrom name hname).1 (List.infix_nil.mp hinfix)
  · rw [orUnknown, if_neg hfield]

theorem isRightRom_turkic {rom : Rom} (hrom : rom ∈ roms) (h : locale.Turkic)
    (brand manufacturer : List Char) :
    isRightRom (orUnknown fold locale brand) (orUnknown fold locale manufacturer) rom = true ↔
      RomWithoutI fold brand manufacturer rom := by
  rw [isRightRom_eq, containsAny_orUnknown hrom, containsAny_orUnknown hrom, Bool.or_eq_true,
    containsAny_turkic (plain_roms rom hrom) h, containsAny_turkic (plain_roms rom hrom) h,
    RomWithoutI]

theorem isRightRom_plain {rom : Rom} (hrom : rom ∈ roms) (h : ¬ locale.Turkic)
    (brand manufacturer : List Char) :
    isRightRom (orUnknown fold locale brand) (orUnknown fold locale manufacturer) rom = true ↔
      RomUndotted fold brand manufacturer rom := by
  rw [isRightRom_eq, containsAny_orUnknown hrom, containsAny_orUnknown hrom, Bool.or_eq_true,
    containsAny_plain (plain_roms rom hrom) h, containsAny_plain (plain_roms rom hrom) h,
    RomUndotted]

def nameFrom (right : Rom → Bool) (manufacturer : List Char) (list : List Rom) : List Char :=
  match list.find? right with
  | some rom => rom.name.toList
  | none => manufacturer

theorem nameFrom_cons (right : Rom → Bool) (manufacturer : List Char) (rom : Rom)
    (rest : List Rom) : nameFrom right manufacturer (rom :: rest) =
      if right rom then rom.name.toList else nameFrom right manufacturer rest := by
  rw [nameFrom, List.find?_cons]
  cases right rom with
  | true => rfl
  | false => rfl

/-- No later ROM has the name, and neither does a manufacturer who would be taken for it. -/
theorem nameFrom_ne {right : Rom → Bool} {manufacturer : List Char} {rom : Rom} {rest : List Rom}
    (hname : rom.name ∉ rest.map Rom.name) (hmanufacturer : manufacturer ≠ rom.name.toList) :
    nameFrom right manufacturer rest ≠ rom.name.toList := by
  induction rest with
  | nil => exact hmanufacturer
  | cons other rest ih =>
    rw [List.map_cons, List.mem_cons, not_or] at hname
    rw [nameFrom_cons]
    split
    · exact fun h => hname.1 (String.toList_inj.mp h).symm
    · exact ih hname.2

theorem orUnknown_ne {rom : Rom} {brand manufacturer : List Char}
    (h : isRightRom (orUnknown fold locale brand) (orUnknown fold locale manufacturer) rom = false) :
    orUnknown fold locale manufacturer ≠ rom.name.toList := by
  intro heq
  have hinfix : rom.name.toList <:+: orUnknown fold locale manufacturer := by
    rw [heq]
  simp [isRightRom, Rom.names, hinfix] at h

theorem length_le_lowercase (text : List Char) :
    text.length ≤ (lowercase fold locale text).length := by
  induction text with
  | nil => exact Nat.le_refl 0
  | cons c text ih =>
    have hpos : 1 ≤ (lowercaseChar fold locale c).length := by
      unfold lowercaseChar
      split_ifs <;> simp
    rw [lowercase_cons, List.length_append, List.length_cons]
    omega

theorem lowercase_same_iff (h₁ : l₁.Turkic) (h₂ : ¬ l₂.Turkic) (text : List Char) :
    lowercase fold l₁ text = lowercase fold l₂ text ↔ 'I' ∉ text ∧ 'İ' ∉ text := by
  induction text with
  | nil => exact iff_of_true rfl ⟨List.not_mem_nil, List.not_mem_nil⟩
  | cons c text ih =>
    rw [lowercase_cons, lowercase_cons]
    by_cases hI : c = 'I'
    · simp [lowercaseChar, hI, h₁, h₂]
    · by_cases hD : c = 'İ'
      · have hlen := congrArg List.length (@lowercase_of_turkic fold l₁ h₁ text)
        have hle := @length_le_lowercase fold l₂ text
        rw [List.length_map] at hlen
        refine iff_of_false ?_ (by simp [hD])
        intro heq
        have heqlen := congrArg List.length heq
        simp only [lowercaseChar, hD, h₁, h₂, if_true, if_false, List.length_append,
          List.length_cons, List.length_nil, Char.reduceEq] at heqlen
        omega
      · simp [lowercaseChar, hI, hD, ih, Ne.symm hI, Ne.symm hD]

theorem orUnknown_same_iff (h₁ : l₁.Turkic) (h₂ : ¬ l₂.Turkic) (field : List Char) :
    orUnknown fold l₁ field = orUnknown fold l₂ field ↔ 'I' ∉ field ∧ 'İ' ∉ field := by
  by_cases hfield : field = []
  · rw [orUnknown, orUnknown, if_pos hfield, if_pos hfield, hfield]
    exact iff_of_true rfl ⟨List.not_mem_nil, List.not_mem_nil⟩
  · rw [orUnknown, orUnknown, if_neg hfield, if_neg hfield]
    exact lowercase_same_iff h₁ h₂ field

theorem nameFrom_same_iff (h₁ : l₁.Turkic) (h₂ : ¬ l₂.Turkic) (brand manufacturer : List Char)
    (list : List Rom) (hlist : ∀ rom ∈ list, rom ∈ roms) (hnodup : (list.map Rom.name).Nodup) :
    nameFrom (isRightRom (orUnknown fold l₁ brand) (orUnknown fold l₁ manufacturer))
        (orUnknown fold l₁ manufacturer) list =
      nameFrom (isRightRom (orUnknown fold l₂ brand) (orUnknown fold l₂ manufacturer))
        (orUnknown fold l₂ manufacturer) list ↔ SameRom fold brand manufacturer list := by
  induction list with
  | nil => exact orUnknown_same_iff h₁ h₂ manufacturer
  | cons rom rest ih =>
    obtain ⟨hrom, hrest⟩ := List.forall_mem_cons.mp hlist
    rw [List.map_cons, List.nodup_cons] at hnodup
    have hturkic := @isRightRom_turkic fold l₁ rom hrom h₁ brand manufacturer
    have hplain := @isRightRom_plain fold l₂ rom hrom h₂ brand manufacturer
    rw [nameFrom_cons, nameFrom_cons, SameRom, ← hturkic, ← hplain, ← ih hrest hnodup.2]
    cases hr₁ : isRightRom (orUnknown fold l₁ brand) (orUnknown fold l₁ manufacturer) rom with
    | true =>
      cases hr₂ : isRightRom (orUnknown fold l₂ brand) (orUnknown fold l₂ manufacturer) rom with
      | true => simp
      | false => simpa using (nameFrom_ne hnodup.1 (orUnknown_ne hr₂)).symm
    | false =>
      cases hr₂ : isRightRom (orUnknown fold l₂ brand) (orUnknown fold l₂ manufacturer) rom with
      | true => simpa using nameFrom_ne hnodup.1 (orUnknown_ne hr₁)
      | false => simp

theorem getRomInfo_name (fold : Char → Char) (locale : Locale) (device : Device) :
    (getRomInfo fold locale device).name = match device.bean with
      | some bean => bean.name
      | none => nameFrom
          (isRightRom (orUnknown fold locale device.brand) (orUnknown fold locale device.manufacturer))
          (orUnknown fold locale device.manufacturer) roms := by
  unfold getRomInfo nameFrom
  cases device.bean with
  | some bean => rfl
  | none =>
    dsimp only
    cases roms.find? (isRightRom (orUnknown fold locale device.brand)
      (orUnknown fold locale device.manufacturer)) with
    | none => rfl
    | some rom => rfl

theorem romName_same_iff (device : Device) (h₁ : l₁.Turkic) (h₂ : ¬ l₂.Turkic) :
    (getRomInfo fold l₁ device).name = (getRomInfo fold l₂ device).name ↔
      (device.bean = none → SameRom fold device.brand device.manufacturer roms) := by
  rw [getRomInfo_name, getRomInfo_name]
  cases device.bean with
  | some bean => simp
  | none =>
    rw [forall_prop_of_true rfl]
    exact nameFrom_same_iff h₁ h₂ device.brand device.manufacturer roms (fun _ h => h) nodup_roms

/-! ### All verdicts -/

theorem verdicts_pair_iff (device : Device) (h₁ : l₁.Turkic) (h₂ : ¬ l₂.Turkic) :
    verdicts fold l₁ device = verdicts fold l₂ device ↔ LanguageFree fold device := by
  have hhardware := @feature_equals_iff fold l₁ l₂ hardwareNames device "ro.hardware"
    (by decide) h₁ h₂
  have hflavor := @feature_contains_iff fold l₁ l₂ ["vbox", "sdk_gphone"] device
    "ro.build.flavor" (by decide) h₁ h₂
  have hmodel := @feature_contains_iff fold l₁ l₂
    ["google_sdk", "emulator", "android sdk built for x86"] device "ro.product.model"
    (by decide) h₁ h₂
  have hmanufacturer := @feature_contains_iff fold l₁ l₂ ["genymotion", "netease"] device
    "ro.product.manufacturer" (by decide) h₁ h₂
  have hboard := @feature_contains_iff fold l₁ l₂ ["android", "goldfish"] device
    "ro.product.board" (by decide) h₁ h₂
  have hplatform := @feature_contains_iff fold l₁ l₂ ["android"] device "ro.board.platform"
    (by decide) h₁ h₂
  have hrom := @romName_same_iff fold l₁ l₂ device h₁ h₂
  have hfrida := @fridaTest_same_iff fold l₁ l₂ device h₁ h₂
  simp only [verdicts, Verdicts.mk.injEq, checkFeaturesByHardware, checkFeaturesByFlavor,
    checkFeaturesByModel, checkFeaturesByManufacturer, checkFeaturesByBoard,
    checkFeaturesByPlatform, hhardware, hflavor, hmodel, hmanufacturer, hboard, hplatform, hrom,
    hfrida, true_and]
  constructor
  · rintro ⟨hardware, flavor, model, manufacturer, board, platform, rom, frida⟩
    exact ⟨hardware, flavor, model, manufacturer, board, platform, rom, frida⟩
  · rintro ⟨hardware, flavor, model, manufacturer, board, platform, rom, frida⟩
    exact ⟨hardware, flavor, model, manufacturer, board, platform, rom, frida⟩

theorem verdicts_congr (device : Device) (h : l₁.Turkic ↔ l₂.Turkic) :
    verdicts fold l₁ device = verdicts fold l₂ device := by
  have hlower := @lowercase_congr fold l₁ l₂ h
  have hunknown : orUnknown fold l₁ = orUnknown fold l₂ := by
    funext field
    rw [orUnknown, hlower, orUnknown]
  have hrom : (getRomInfo fold l₁ device).name = (getRomInfo fold l₂ device).name := by
    rw [getRomInfo_name, getRomInfo_name, hunknown]
  have hfrida : fridaTest fold l₁ device = fridaTest fold l₂ device := by
    rw [fridaTest_eq, fridaTest_eq, decide_eq_decide]
    simp only [hasFrida, hlower]
  simp only [verdicts, checkFeaturesByHardware, checkFeaturesByFlavor, checkFeaturesByModel,
    checkFeaturesByManufacturer, checkFeaturesByBoard, checkFeaturesByPlatform, hrom, hfrida,
    hlower]

theorem verdicts_same_iff (fold : Char → Char) (device : Device) :
    (∀ l₁ l₂ : Locale, verdicts fold l₁ device = verdicts fold l₂ device) ↔
      LanguageFree fold device := by
  constructor
  · intro h
    have htr : Locale.Turkic ⟨"tr"⟩ := Or.inl rfl
    have hen : ¬ Locale.Turkic ⟨"en"⟩ := by decide
    exact (verdicts_pair_iff device htr hen).mp (h ⟨"tr"⟩ ⟨"en"⟩)
  · intro h l₁ l₂
    by_cases h₁ : l₁.Turkic
    · by_cases h₂ : l₂.Turkic
      · exact verdicts_congr device (iff_of_true h₁ h₂)
      · exact (verdicts_pair_iff device h₁ h₂).mpr h
    · by_cases h₂ : l₂.Turkic
      · exact ((verdicts_pair_iff device h₂ h₁).mpr h).symm
      · exact verdicts_congr device (iff_of_false h₁ h₂)

/-- An emulator whose hardware is spelt in capitals is found in one language only. -/
theorem intel_depends :
    ¬ ∀ l₁ l₂ : Locale, verdicts Char.toLower l₁
        ⟨fun name => if name = "ro.hardware" then "INTEL".toList else [], fun _ => [], fun _ => [],
          fun _ => [], 30, [], [], [], [], [], none⟩ =
      verdicts Char.toLower l₂
        ⟨fun name => if name = "ro.hardware" then "INTEL".toList else [], fun _ => [], fun _ => [],
          fun _ => [], 30, [], [], [], [], [], none⟩ := by
  intro h
  have hhardware := congrArg Verdicts.hardware (h ⟨"tr"⟩ ⟨"en"⟩)
  revert hhardware
  decide

end DeviceLocale

end EnvironmentCheck
