import KeyTransparency.Proofs.Json.Double
import KeyTransparency.Proofs.Json.Members
import KeyTransparency.Proofs.Wire.Basic
import KeyTransparency.Settings.Schema
import Mathlib.Data.List.Nodup

/-!
# The grammar of settings

Settings pass two readers one after the other.  The schema admits numbers that no word holds, whole
numbers with a point, and keys with unused bits, which cannot be read.  What can be read may be
null, a limit of zero, or a key without its padding, which the schema refuses.  Only what both take
is a setting, and this is what is written for the value of the setting.
-/

namespace KeyTransparency

/-! ## What is read is what is written -/

namespace Wire

theorem ofJson?_eq_some_iff_text {json : Json} {text : String} :
    ofJson? json = some text ↔ json = .text text := by
  change json.text? = some text ↔ _
  cases json <;> simp [Json.text?, Json.text]

theorem ofJson?_eq_some_iff_nat {json : Json} {n : UInt64} :
    ofJson? json = some n ↔ json = .nat n.toNat := by
  constructor
  · intro h
    obtain ⟨k, hk, rfl⟩ := Option.map_eq_some_iff.mp h
    obtain ⟨hint, hbounds⟩ := Option.filter_eq_some_iff.mp hk
    obtain ⟨hleast, hgreatest⟩ := of_decide_eq_true hbounds
    have hsize : k.toNat < UInt64.size := by omega
    have hk : ((UInt64.ofNat k.toNat).toNat : Int) = k := by
      rw [UInt64.toNat_ofNat_of_lt' hsize, Int.toNat_of_nonneg hleast]
    rw [Json.nat, hk]
    cases json with
    | number numeral => exact congrArg Json.number (Numeral.toInt?_eq_some_iff.mp hint)
    | _ => cases hint
  · rintro rfl
    exact LawfulWire.ofJson?_toJson n

/-- A key is read from its digits with or without its one padding character. -/
theorem ofJson?_eq_some_iff_written {json : Json} {key : Octets 32} :
    ofJson? json = some key ↔
      ∃ count ≤ 1, json = .text (.ofList (Text.Base64.written key.bytes count)) := by
  have hpadding : Text.Base64.paddingLength (Text.Base64.digits key.bytes).length = 1 := by
    rw [Text.Base64.length_digits, key.length_bytes]
    rfl
  constructor
  · intro h
    obtain ⟨bytes, hbytes, hkey⟩ := Option.bind_eq_some_iff.mp h
    obtain ⟨text, htext, hdecoded⟩ := Option.bind_eq_some_iff.mp hbytes
    obtain rfl := Octets.ofBytes?_eq_some_iff.mp hkey
    obtain ⟨count, hadmits, hwritten⟩ := Text.Base64.decode?_eq_some_iff.mp hdecoded
    rw [hpadding] at hadmits
    refine ⟨count, of_decide_eq_true hadmits, ?_⟩
    rw [← hwritten, String.ofList_toList]
    exact ofJson?_eq_some_iff_text.mp htext
  · rintro ⟨count, hcount, rfl⟩
    have hdecoded : Text.Base64.decode? .optional (Text.Base64.written key.bytes count) =
        some key.bytes :=
      Text.Base64.decode?_eq_some_iff.mpr ⟨count, hpadding ▸ decide_eq_true hcount, rfl⟩
    change (Text.Base64.decode? .optional (String.ofList _).toList).bind (Octets.ofBytes? 32) = _
    rw [String.toList_ofList, hdecoded, Option.bind_some, Octets.ofBytes?_bytes]

end Wire

namespace Settings

open Wire (Fields)

/-! ## The grammar -/

/-- A limit is the number that is written, if one is, and the standard one otherwise. -/
def LimitIs (value? : Option Json) (least : Nat) (standard limit : UInt64) : Prop :=
  value? = none ∧ limit = standard ∨ value? = some (.nat limit.toNat) ∧ least ≤ limit.toNat

/-- The name is that of a setting. -/
def IsSetting (name : Option String) : Prop := ∃ known ∈ names, name = some known

/-- The settings are those that are written, given what is written for each name. -/
structure WrittenBy (settings : Settings) (value? : String → Option Json) : Prop where
  loggingLevel : value? "logging_level" = settings.loggingLevel.map .text
  loggingLevel_mem : ∀ level ∈ settings.loggingLevel, level ∈ levels
  logId : value? "log_id" = some (.text settings.logId)
  length_logId : 1 ≤ settings.logId.length ∧ settings.logId.length ≤ 65535
  servicePublicKey :
    value? "service_public_key" = some (Wire.bytesToJson settings.servicePublicKey.bytes)
  vrfPublicKey : value? "vrf_public_key" = some (Wire.bytesToJson settings.vrfPublicKey.bytes)
  auditorPublicKey : value? "auditor_public_key" =
    settings.auditorPublicKey.map fun key => Wire.bytesToJson key.bytes
  maxTreeHeadAge : LimitIs (value? "max_tree_head_age_secs") 1
    Limits.standard.maxTreeHeadAge settings.limits.maxTreeHeadAge
  maxAuditorTreeHeadAge : LimitIs (value? "max_auditor_tree_head_age_secs") 1
    Limits.standard.maxAuditorTreeHeadAge settings.limits.maxAuditorTreeHeadAge
  maxClockSkew : LimitIs (value? "max_clock_skew_secs") 0
    Limits.standard.maxClockSkew settings.limits.maxClockSkew
  maxAuditorLag : LimitIs (value? "max_auditor_lag") 0
    Limits.standard.maxAuditorLag settings.limits.maxAuditorLag

/-! ## What is read under a rule -/

/-- What keeps the rule and is read is what is written for the values with the property. -/
def Rule.Reads {α : Type} [Wire α] (rule : Rule) (p : α → Prop) : Prop :=
  ∀ (json : Json) (a : α), rule.admits json ∧ Wire.ofJson? json = some a ↔ json = toJson a ∧ p a

theorem reads_text (rule : Rule) : rule.Reads fun text : String => rule.admits (.text text) := by
  intro json text
  rw [Wire.ofJson?_eq_some_iff_text]
  constructor
  · rintro ⟨hadmits, rfl⟩
    exact ⟨rfl, hadmits⟩
  · rintro ⟨rfl, hadmits⟩
    exact ⟨hadmits, rfl⟩

theorem reads_level : Rule.level.Reads (· ∈ levels) := fun json level =>
  (reads_text .level json level).trans (and_congr_right' List.contains_iff_mem)

theorem reads_characters (least greatest : Nat) :
    (Rule.characters least greatest).Reads fun text : String =>
      least ≤ text.length ∧ text.length ≤ greatest := fun json text =>
  (reads_text (.characters least greatest) json text).trans (and_congr_right' decide_eq_true_iff)

/-- A text that writes a key looks like one if its padding character is there. -/
theorem looksLikeKey_written {key : Octets 32} {count : Nat} :
    looksLikeKey (.ofList (Text.Base64.written key.bytes count)) ↔ count = 1 := by
  have hlength : ((Text.Base64.digits key.bytes).map Text.Base64.digitChar).length = 43 := by
    rw [List.length_map, Text.Base64.length_digits, key.length_bytes]
  have hdigits : ((Text.Base64.digits key.bytes).map Text.Base64.digitChar).all
      (fun c => (Text.Base64.digit? c).isSome) := by
    refine List.all_eq_true.mpr fun c hc => ?_
    obtain ⟨n, hn, rfl⟩ := List.mem_map.mp hc
    rw [Text.Base64.digit?_digitChar n (Text.Base64.lt_of_mem_digits hn)]
    rfl
  rw [looksLikeKey, String.toList_ofList, Text.Base64.written, List.take_left' hlength,
    List.drop_left' hlength, hdigits, List.length_append, hlength, List.length_replicate]
  constructor
  · intro h
    have hcount : 43 + count = 44 := by simpa using (Bool.and_eq_true_iff.mp h).1
    omega
  · rintro rfl
    rfl

theorem reads_key : Rule.key.Reads fun _ : Octets 32 => True := by
  intro json key
  have hencode : toJson key = .text (.ofList (Text.Base64.written key.bytes 1)) := by
    change Json.text (.ofList (Text.Base64.encode key.bytes)) = _
    rw [Text.Base64.encode_eq_written, Text.Base64.length_digits, key.length_bytes]
    rfl
  rw [Wire.ofJson?_eq_some_iff_written, hencode]
  constructor
  · rintro ⟨hadmits, count, -, rfl⟩
    exact ⟨by rw [looksLikeKey_written.mp hadmits], trivial⟩
  · rintro ⟨rfl, -⟩
    exact ⟨looksLikeKey_written.mpr rfl, 1, Nat.le_refl 1, rfl⟩

/-- The double of a number is compared with the bound, but for bounds this small it decides as the
number does. -/
theorem admits_integer {least n : Nat} (hleast : least ≤ 1) (hn : n < UInt64.size) :
    (Rule.integer least).admits (.nat n) = decide (least ≤ n) := by
  obtain ⟨x, m, hx, hm, hzero⟩ := Numeral.exists_toDouble?_ofInt hn
  have hadmits : (Rule.integer least).admits (.nat n) = (x.isWhole && x.atLeast least) := by
    rw [Json.nat, Json.int, Rule.admits, hx]
  rw [hadmits, hm.isWhole, Bool.true_and, hm.atLeast]
  exact decide_eq_decide.mpr (by omega)

theorem reads_integer {least : Nat} (hleast : least ≤ 1) :
    (Rule.integer least).Reads fun n : UInt64 => least ≤ n.toNat := by
  intro json n
  have hadmits := admits_integer hleast n.toNat_lt
  rw [Wire.ofJson?_eq_some_iff_nat]
  constructor
  · rintro ⟨hjson, rfl⟩
    exact ⟨rfl, of_decide_eq_true (hadmits ▸ hjson)⟩
  · rintro ⟨rfl, hn⟩
    exact ⟨hadmits.trans (decide_eq_true hn), rfl⟩

/-! ## Fields that keep their rules -/

theorem optional?_eq_of_ne_null {α : Type} [Wire α] {fields : Fields} {name : String}
    {json : Json} (hfound : fields.find? name = some json) (hne : json ≠ .null) :
    (fields.optional? name : Option (Option α)) = (Wire.ofJson? json).map some := by
  rw [Fields.optional?, hfound]
  split
  · contradiction
  · rename_i heq
    exact absurd (Option.some.inj heq) hne
  · rename_i heq
    rw [Option.some.inj heq]

namespace Rule.Reads

variable {α : Type} [Wire α] {rule : Rule} {p : α → Prop} {fields : Fields} {name : String}

theorem required?_iff (h : rule.Reads p) {a : α} :
    (∀ json ∈ fields.find? name, rule.admits json) ∧ fields.required? name = some a ↔
      fields.find? name = some (toJson a) ∧ p a := by
  rw [Fields.required?]
  cases fields.find? name with
  | none => simp
  | some json => simpa using h json a

theorem optional?_iff (h : rule.Reads p) (hnull : ¬rule.admits .null) {setting : Option α} :
    (∀ json ∈ fields.find? name, rule.admits json) ∧ fields.optional? name = some setting ↔
      fields.find? name = setting.map toJson ∧ ∀ a ∈ setting, p a := by
  cases hfound : fields.find? name with
  | none =>
    have habsent : (fields.optional? name : Option (Option α)) = some none := by
      rw [Fields.optional?, hfound]
    cases setting <;> simp [habsent]
  | some json =>
    have hwritten : rule.admits json →
        (fields.optional? name : Option (Option α)) = (Wire.ofJson? json).map some := by
      intro hadmits
      exact optional?_eq_of_ne_null hfound fun heq => hnull (heq ▸ hadmits)
    cases setting with
    | none =>
      refine iff_of_false ?_ (by simp)
      rintro ⟨hadmits, hread⟩
      simp [hwritten (hadmits json rfl)] at hread
    | some a =>
      have hreads := h json a
      constructor
      · rintro ⟨hadmits, hread⟩
        rw [hwritten (hadmits json rfl)] at hread
        obtain ⟨b, hb, heq⟩ := Option.map_eq_some_iff.mp hread
        cases heq
        obtain ⟨hjson, hp⟩ := hreads.mp ⟨hadmits json rfl, hb⟩
        exact ⟨congrArg some hjson, fun _ hmem => Option.some.inj hmem ▸ hp⟩
      · rintro ⟨hjson, hp⟩
        obtain ⟨hadmits, hread⟩ := hreads.mpr ⟨Option.some.inj hjson, hp a rfl⟩
        refine ⟨fun _ hmem => Option.some.inj hmem ▸ hadmits, ?_⟩
        rw [hwritten hadmits, hread]
        rfl

end Rule.Reads

theorem limitIs_iff {fields : Fields} {name : String} {least : Nat} (hleast : least ≤ 1)
    {standard limit : UInt64} :
    (∀ json ∈ fields.find? name, (Rule.integer least).admits json) ∧
        fields.withDefault? name standard = some limit ↔
      LimitIs (fields.find? name) least standard limit := by
  rw [Fields.withDefault?, LimitIs]
  cases fields.find? name with
  | none => simp only [Option.mem_def, reduceCtorEq, false_implies, implies_true, true_and,
      Option.some.injEq, false_and, or_false, eq_comm]
  | some json =>
    simp only [Option.mem_def, Option.some.injEq, forall_eq', reduceCtorEq, false_and, false_or]
    exact reads_integer hleast json limit

/-! ## The two readers -/

/-- The settings are read off the fields. -/
structure ReadFrom (fields : Fields) (settings : Settings) : Prop where
  loggingLevel : fields.optional? "logging_level" = some settings.loggingLevel
  logId : fields.required? "log_id" = some settings.logId
  servicePublicKey : fields.required? "service_public_key" = some settings.servicePublicKey
  vrfPublicKey : fields.required? "vrf_public_key" = some settings.vrfPublicKey
  auditorPublicKey : fields.optional? "auditor_public_key" = some settings.auditorPublicKey
  maxTreeHeadAge : fields.withDefault? "max_tree_head_age_secs" Limits.standard.maxTreeHeadAge =
    some settings.limits.maxTreeHeadAge
  maxAuditorTreeHeadAge : fields.withDefault? "max_auditor_tree_head_age_secs"
    Limits.standard.maxAuditorTreeHeadAge = some settings.limits.maxAuditorTreeHeadAge
  maxClockSkew : fields.withDefault? "max_clock_skew_secs" Limits.standard.maxClockSkew =
    some settings.limits.maxClockSkew
  maxAuditorLag : fields.withDefault? "max_auditor_lag" Limits.standard.maxAuditorLag =
    some settings.limits.maxAuditorLag

theorem ofJson?_eq_some_iff {json : Json} {settings : Settings} :
    ofJson? json = some settings ↔
      ∃ fields, Fields.ofJson? names json = some fields ∧ ReadFrom fields settings := by
  simp only [ofJson?, Option.bind_eq_bind, Option.bind_eq_some_iff, Option.pure_def,
    Option.some.injEq]
  constructor
  · rintro ⟨fields, hfields, level, hlevel, logId, hlogId, service, hservice, vrf, hvrf, auditor,
      hauditor, age, hage, auditorAge, hauditorAge, skew, hskew, lag, hlag, rfl⟩
    exact ⟨fields, hfields, hlevel, hlogId, hservice, hvrf, hauditor, hage, hauditorAge, hskew,
      hlag⟩
  · rintro ⟨fields, hfields, h⟩
    exact ⟨fields, hfields, _, h.loggingLevel, _, h.logId, _, h.servicePublicKey, _,
      h.vrfPublicKey, _, h.auditorPublicKey, _, h.maxTreeHeadAge, _, h.maxAuditorTreeHeadAge, _,
      h.maxClockSkew, _, h.maxAuditorLag, rfl⟩

/-- What the rules admit and is read are the settings that are written. -/
theorem admits_and_readFrom_iff {fields : Fields} {settings : Settings} :
    (∀ entry ∈ rules, ∀ json ∈ fields.find? entry.1, entry.2.admits json) ∧
        ReadFrom fields settings ↔ settings.WrittenBy fields.find? := by
  simp only [rules, List.forall_mem_cons]
  constructor
  · rintro ⟨⟨hlevel, hlogId, hservice, hvrf, hauditor, hage, hauditorAge, hskew, hlag, -⟩, h⟩
    obtain ⟨hlevel, hlevelMem⟩ :=
      (reads_level.optional?_iff (by decide)).mp ⟨hlevel, h.loggingLevel⟩
    obtain ⟨hlogId, hlength⟩ := (reads_characters 1 65535).required?_iff.mp ⟨hlogId, h.logId⟩
    exact {
      loggingLevel := hlevel
      loggingLevel_mem := hlevelMem
      logId := hlogId
      length_logId := hlength
      servicePublicKey := (reads_key.required?_iff.mp ⟨hservice, h.servicePublicKey⟩).1
      vrfPublicKey := (reads_key.required?_iff.mp ⟨hvrf, h.vrfPublicKey⟩).1
      auditorPublicKey :=
        ((reads_key.optional?_iff (by decide)).mp ⟨hauditor, h.auditorPublicKey⟩).1
      maxTreeHeadAge := (limitIs_iff (by decide)).mp ⟨hage, h.maxTreeHeadAge⟩
      maxAuditorTreeHeadAge :=
        (limitIs_iff (by decide)).mp ⟨hauditorAge, h.maxAuditorTreeHeadAge⟩
      maxClockSkew := (limitIs_iff (by decide)).mp ⟨hskew, h.maxClockSkew⟩
      maxAuditorLag := (limitIs_iff (by decide)).mp ⟨hlag, h.maxAuditorLag⟩ }
  · intro h
    obtain ⟨hlevel, hlevelRead⟩ :=
      (reads_level.optional?_iff (by decide)).mpr ⟨h.loggingLevel, h.loggingLevel_mem⟩
    obtain ⟨hlogId, hlogIdRead⟩ :=
      (reads_characters 1 65535).required?_iff.mpr ⟨h.logId, h.length_logId⟩
    obtain ⟨hservice, hserviceRead⟩ :=
      reads_key.required?_iff.mpr ⟨h.servicePublicKey, trivial⟩
    obtain ⟨hvrf, hvrfRead⟩ := reads_key.required?_iff.mpr ⟨h.vrfPublicKey, trivial⟩
    obtain ⟨hauditor, hauditorRead⟩ :=
      (reads_key.optional?_iff (by decide)).mpr ⟨h.auditorPublicKey, fun _ _ => trivial⟩
    obtain ⟨hage, hageRead⟩ := (limitIs_iff (by decide)).mpr h.maxTreeHeadAge
    obtain ⟨hauditorAge, hauditorAgeRead⟩ :=
      (limitIs_iff (by decide)).mpr h.maxAuditorTreeHeadAge
    obtain ⟨hskew, hskewRead⟩ := (limitIs_iff (by decide)).mpr h.maxClockSkew
    obtain ⟨hlag, hlagRead⟩ := (limitIs_iff (by decide)).mpr h.maxAuditorLag
    exact ⟨⟨hlevel, hlogId, hservice, hvrf, hauditor, hage, hauditorAge, hskew, hlag,
        fun _ hentry => absurd hentry List.not_mem_nil⟩,
      ⟨hlevelRead, hlogIdRead, hserviceRead, hvrfRead, hauditorRead, hageRead, hauditorAgeRead,
        hskewRead, hlagRead⟩⟩

/-- The schema asks of a member that it is a setting that keeps its rule. -/
theorem member_admits_iff {name : Option String} {value : Json} :
    (match name.bind fun name => rules.lookup name with
      | some rule => rule.admits value
      | none => false) = true ↔
      ∃ entry ∈ rules, name = some entry.1 ∧ entry.2.admits value := by
  have hnodup : (rules.map (·.1)).Nodup := by decide
  constructor
  · intro h
    split at h
    · rename_i rule hrule
      obtain ⟨known, rfl, hlookup⟩ := Option.bind_eq_some_iff.mp hrule
      exact ⟨(known, rule), (Json.lookup_eq_some_iff_mem hnodup).mp hlookup, rfl, h⟩
    · contradiction
  · rintro ⟨⟨known, rule⟩, hentry, rfl, hadmits⟩
    rw [Option.bind_some, (Json.lookup_eq_some_iff_mem hnodup).mpr hentry]
    exact hadmits

/-- The schema asks of an object without repeated members that all its members are settings, that
those which are there keep their rules, and that those which must be there are. -/
theorem matchesSchema_object_iff {members : List (Option String × Json)}
    (hnodup : (members.map (·.1)).Nodup) :
    matchesSchema (.object members) ↔
      (∀ member ∈ members, IsSetting member.1) ∧
      (∀ entry ∈ rules, ∀ json ∈ members.lookup (some entry.1), entry.2.admits json) ∧
      ∀ name ∈ requiredNames, some name ∈ members.map (·.1) := by
  have hrequired (name : String) :
      members.any (·.1 == some name) ↔ some name ∈ members.map (·.1) := by
    simp
  have hrules : (rules.map (·.1)).Nodup := by decide
  rw [matchesSchema, Bool.and_eq_true, List.all_eq_true, List.all_eq_true, ← and_assoc]
  refine and_congr (Iff.trans (forall₂_congr fun _ _ => member_admits_iff) ?_)
    (forall₂_congr fun name _ => hrequired name)
  constructor
  · intro h
    refine ⟨fun member hmember => ?_, fun entry hentry json hjson => ?_⟩
    · obtain ⟨entry, hentry, hname, -⟩ := h member hmember
      exact ⟨entry.1, List.mem_map_of_mem hentry, hname⟩
    · obtain ⟨other, hother, hname, hadmits⟩ :=
        h _ ((Json.lookup_eq_some_iff_mem hnodup).mp hjson)
      obtain rfl := List.inj_on_of_nodup_map hrules hentry hother (Option.some.inj hname)
      exact hadmits
  · rintro ⟨hnames, hadmits⟩ member hmember
    obtain ⟨name, hname, hmemberName⟩ := hnames member hmember
    obtain ⟨entry, hentry, rfl⟩ := List.mem_map.mp (show name ∈ rules.map (·.1) from hname)
    refine ⟨entry, hentry, hmemberName, hadmits entry hentry member.2 ?_⟩
    exact (Json.lookup_eq_some_iff_mem hnodup).mpr (hmemberName ▸ hmember)

theorem lookup_map_some (named : List (String × Json)) (name : String) :
    (named.map fun (name, value) => (some name, value)).lookup (some name) =
      named.lookup name := by
  induction named with
  | nil => rfl
  | cons entry rest ih =>
    rw [List.map_cons, List.lookup_cons, List.lookup_cons, ih]
    rfl

/-- The members of an object are found as fields, if all of them are fields and none is
repeated. -/
theorem exists_fields {members : List (Option String × Json)}
    (hnodup : (members.map (·.1)).Nodup)
    (hnames : ∀ member ∈ members, IsSetting member.1) :
    ∃ fields, Fields.ofJson? names (.object members) = some fields ∧
      ∀ name, fields.find? name = members.lookup (some name) := by
  obtain ⟨named, rfl⟩ : ∃ named : List (String × Json),
      named.map (fun (name, value) => (some name, value)) = members := by
    refine ⟨members.map fun member => (member.1.getD "", member.2), ?_⟩
    rw [List.map_map]
    refine (List.map_congr_left fun member hmember => ?_).trans (List.map_id members)
    obtain ⟨name, -, hname⟩ := hnames member hmember
    obtain ⟨first, value⟩ := member
    obtain rfl : first = some name := hname
    rfl
  refine ⟨⟨named⟩, Wire.Fields.ofJson?_record ?_ ?_, fun name => (lookup_map_some named name).symm⟩
  · intro member hmember
    obtain ⟨name, hname, heq⟩ := hnames _ (List.mem_map_of_mem hmember)
    exact Option.some.inj heq ▸ hname
  · rw [List.map_map] at hnodup
    exact List.Nodup.of_map some (by rw [List.map_map]; exact hnodup)

theorem LimitIs.congr {value? other? : Option Json} {least : Nat} {standard limit : UInt64}
    (h : ∀ wanted : Option Json, (∀ json ∈ wanted, json.IsScalar) →
      value? = wanted → other? = wanted)
    (hlimit : LimitIs value? least standard limit) : LimitIs other? least standard limit := by
  obtain ⟨habsent, hstandard⟩ | ⟨hwritten, hleast⟩ := hlimit
  · exact .inl ⟨h none (fun _ hjson => nomatch hjson) habsent, hstandard⟩
  · exact .inr ⟨h _ (fun _ hjson => Option.some.inj hjson ▸ trivial) hwritten, hleast⟩

/-- What settings are written is told by the texts and numbers among the values. -/
theorem WrittenBy.congr {settings : Settings} {value? other? : String → Option Json}
    (h : ∀ name wanted, (∀ json ∈ wanted, json.IsScalar) →
      value? name = wanted → other? name = wanted)
    (hwritten : settings.WrittenBy value?) : settings.WrittenBy other? where
  loggingLevel := h _ _ (by simp [Json.text, Json.IsScalar]) hwritten.loggingLevel
  loggingLevel_mem := hwritten.loggingLevel_mem
  logId := h _ _ (by simp [Json.text, Json.IsScalar]) hwritten.logId
  length_logId := hwritten.length_logId
  servicePublicKey := h _ _ (by simp [Wire.bytesToJson, Json.text, Json.IsScalar])
    hwritten.servicePublicKey
  vrfPublicKey := h _ _ (by simp [Wire.bytesToJson, Json.text, Json.IsScalar])
    hwritten.vrfPublicKey
  auditorPublicKey := h _ _ (by simp [Wire.bytesToJson, Json.text, Json.IsScalar])
    hwritten.auditorPublicKey
  maxTreeHeadAge := hwritten.maxTreeHeadAge.congr (h _)
  maxAuditorTreeHeadAge := hwritten.maxAuditorTreeHeadAge.congr (h _)
  maxClockSkew := hwritten.maxClockSkew.congr (h _)
  maxAuditorLag := hwritten.maxAuditorLag.congr (h _)

/-- Of repeated members the last is read. -/
theorem writtenBy_collapse_iff {settings : Settings} {members : List (Option String × Json)} :
    (settings.WrittenBy fun name => (Json.collapseMembers members).lookup (some name)) ↔
      settings.WrittenBy (Json.lastValue? members) := by
  simp only [Json.lookup_collapseMembers]
  constructor
  · exact WrittenBy.congr fun _ _ hscalar => (Json.map_collapse_eq_iff hscalar).mp
  · exact WrittenBy.congr fun _ _ hscalar => (Json.map_collapse_eq_iff hscalar).mpr

/-- The settings of an object without repeated members. -/
theorem object_gives_iff {members : List (Option String × Json)} {settings : Settings}
    (hnodup : (members.map (·.1)).Nodup) :
    matchesSchema (.object members) ∧ ofJson? (.object members) = some settings ↔
      (∀ member ∈ members, IsSetting member.1) ∧
      settings.WrittenBy fun name => members.lookup (some name) := by
  rw [matchesSchema_object_iff hnodup, ofJson?_eq_some_iff]
  constructor
  · rintro ⟨⟨hnames, hadmits, -⟩, fields, hfields, hread⟩
    obtain ⟨known, hknown, hfind⟩ := exists_fields hnodup hnames
    obtain rfl := Option.some.inj (hknown.symm.trans hfields)
    simp only [← hfind] at hadmits ⊢
    exact ⟨hnames, admits_and_readFrom_iff.mp ⟨hadmits, hread⟩⟩
  · rintro ⟨hnames, hwritten⟩
    obtain ⟨fields, hfields, hfind⟩ := exists_fields hnodup hnames
    simp only [← hfind] at hwritten ⊢
    obtain ⟨hadmits, hread⟩ := admits_and_readFrom_iff.mpr hwritten
    refine ⟨⟨hnames, hadmits, ?_⟩, fields, hfields, hread⟩
    have hpresent {name : String} {json : Json} (hfound : fields.find? name = some json) :
        some name ∈ members.map (·.1) :=
      List.mem_map_of_mem ((Json.lookup_eq_some_iff_mem hnodup).mp (hfind name ▸ hfound))
    simp only [requiredNames, List.forall_mem_cons]
    exact ⟨hpresent hwritten.logId, hpresent hwritten.servicePublicKey,
      hpresent hwritten.vrfPublicKey, fun _ hname => absurd hname List.not_mem_nil⟩

theorem ofText_eq_ok_iff_readers {text : String} {settings : Settings} :
    ofText text = .ok settings ↔
      ∃ json, Json.readPlain? text = some json ∧
        matchesSchema json ∧ ofJson? json = some settings := by
  rw [ofText]
  cases Json.readPlain? text with
  | none => exact iff_of_false (by rintro ⟨⟩) (by simp)
  | some json =>
    by_cases hschema : matchesSchema json
    · cases hsettings : ofJson? json with
      | none => simp [hschema, hsettings, throw, throwThe, MonadExceptOf.throw]
      | some given => simp [hschema, hsettings, pure, Except.pure]
    · simp [hschema, throw, throwThe, MonadExceptOf.throw, bind, Except.bind]

/-- Settings are read from exactly the texts that write them: the text is that of an object, all its
members are settings, and the last member of each name writes the setting. -/
theorem ofText_eq_ok_iff {text : String} {settings : Settings} :
    ofText text = .ok settings ↔
      ∃ members, Json.IsPlainText text (.object members) ∧
        (∀ member ∈ members, IsSetting member.1) ∧
        settings.WrittenBy (Json.lastValue? members) := by
  rw [ofText_eq_ok_iff_readers]
  constructor
  · rintro ⟨json, hread, hschema, hsettings⟩
    obtain ⟨value, hvalue, rfl⟩ := Json.readPlain?_eq_some_iff.mp hread
    cases value with
    | object members =>
      obtain ⟨hnames, hwritten⟩ :=
        (object_gives_iff (Json.nodup_collapseMembers members)).mp ⟨hschema, hsettings⟩
      exact ⟨members, hvalue, Json.forall_collapseMembers_iff.mp hnames,
        writtenBy_collapse_iff.mp hwritten⟩
    | _ => contradiction
  · rintro ⟨members, hvalue, hnames, hwritten⟩
    refine ⟨_, Json.readPlain?_eq_some_iff.mpr ⟨_, hvalue, rfl⟩, ?_⟩
    exact (object_gives_iff (Json.nodup_collapseMembers members)).mpr
      ⟨Json.forall_collapseMembers_iff.mpr hnames, writtenBy_collapse_iff.mpr hwritten⟩

end Settings

end KeyTransparency
