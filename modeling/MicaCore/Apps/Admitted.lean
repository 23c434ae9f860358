import MicaCore.Apps.Render
import MicaCore.Deploy.Identity

namespace MicaCore.Apps

open Data
open Deploy.DebianVersion

def allowOf (device : Text) : List Text :=
  match deviceClass device with
  | some kind => kind.drivers.map ("char-".toList ++ ·)
  | none => [device]

/-- Every allowed node is one of a device that may be asked for. -/
def Granted (devices : List Text) : Prop :=
  ∀ allowed ∈ devices, ∃ device, isDevice device = true ∧ allowed ∈ allowOf device

section Texts

variable {c : Char} {t : Text}

theorem Quiet.of_marks (marks : String) (hmarks : marks.toList.all (fun c ↦ !special c) = true)
    (h : t.all (fun c ↦ asciiAlphanumeric c || marks.toList.contains c) = true) : Quiet t := by
  intro c hc
  rcases Bool.or_eq_true_iff.1 (List.all_eq_true.1 h c hc) with halnum | hmark
  · exact special_of_alphanumeric halnum
  · simpa using List.all_eq_true.1 hmarks c (List.contains_iff_mem.1 hmark)

theorem Quiet.cons (hc : special c = false) (ht : Quiet t) : Quiet (c :: t) :=
  List.forall_mem_cons.2 ⟨hc, ht⟩

theorem Quiet.join {sep : Text} {ts : List Text} (hsep : Quiet sep) (h : ∀ w ∈ ts, Quiet w) :
    Quiet (Apps.join sep ts) := fun c hc ↦
  (of_mem_join hc).elim (hsep c) fun ⟨w, hw, hmem⟩ ↦ h w hw c hmem

theorem quiet_of_parts {upstream revision rest : Text}
    (hsplit : (rsplitOnce '-' rest).getD (rest, []) = (upstream, revision))
    (hupstream : upstreamOk upstream = true) (hrevision : revisionOk rest revision = true) :
    Quiet rest := by
  have hup : Quiet upstream := .of_marks _ (by decide) (Bool.and_eq_true_iff.1 hupstream).2
  cases hr : rsplitOnce '-' rest with
  | none =>
    obtain ⟨rfl, -⟩ : rest = upstream ∧ [] = revision := by simpa [hr] using hsplit
    exact hup
  | some ab =>
    obtain ⟨a, b⟩ := ab
    obtain ⟨rfl, rfl⟩ : a = upstream ∧ b = revision := by simpa [hr] using hsplit
    obtain ⟨⟨b', a'⟩, hsome, heq⟩ := Option.map_eq_some_iff.1 hr
    obtain ⟨rfl, rfl⟩ : a'.reverse = a ∧ b'.reverse = b := by simpa using heq
    have hrest : rest = a'.reverse ++ '-' :: b'.reverse := by
      have hrev := congrArg List.reverse (splitOnce_eq_some hsome)
      simpa using hrev
    have hrev : Quiet b'.reverse := by
      rcases Bool.or_eq_true_iff.1 hrevision with hempty | hall
      · have hnil := List.isEmpty_iff.1 (Bool.and_eq_true_iff.1 hempty).1
        rw [hnil]
        exact fun _ hc ↦ absurd hc List.not_mem_nil
      · exact .of_marks _ (by decide) (Bool.and_eq_true_iff.1 hall).2
    rw [hrest]
    exact hup.append (.cons (by decide) hrev)

theorem quiet_version {version : Text} (h : isVersion version = true) : Quiet version := by
  have hsome := (Bool.and_eq_true_iff.1 h).2
  obtain ⟨order, horder⟩ := Option.isSome_iff_exists.1 hsome
  obtain ⟨p, hp, -⟩ := Option.bind_eq_some_iff.1 horder
  obtain ⟨before, rest, heq, hbefore, hsplit, hupstream, hrevision⟩ := parts_eq_some hp
  rw [Text.shown, String.toList_ofList] at heq
  rw [heq]
  refine .append (fun c hc ↦ ?_) (quiet_of_parts hsplit hupstream hrevision)
  rcases Bool.or_eq_true_iff.1 (List.all_eq_true.1 hbefore c hc) with hdigit | hcolon
  · exact special_of_alphanumeric (by simp [asciiAlphanumeric, hdigit])
  · rw [beq_iff_eq.1 hcolon]
    decide

theorem quiet_part {rest : Text} (h : ((rest.splitOn '/').all fun part ↦
      !part.isEmpty && part != ".".toList && part != "..".toList &&
        part.all fun c ↦ asciiAlphanumeric c || "._-:".toList.contains c) = true) : Quiet rest := by
  have hjoin : ['/'].intercalate (rest.splitOn '/') = rest := List.intercalate_splitOn '/'
  rw [← hjoin]
  exact .join (by decide) fun part hpart ↦
    .of_marks _ (by decide) (Bool.and_eq_true_iff.1 (List.all_eq_true.1 h part hpart)).2

theorem quiet_device {device : Text} (h : isDevice device = true) : Quiet device := by
  simp only [isDevice, Bool.and_eq_true, Option.any_eq_true] at h
  obtain ⟨-, rest, hrest, hall⟩ := h
  have hnode : Quiet ((stripSuffix ['*'] device).getD device) := by
    rw [stripPrefix_eq_some hrest]
    exact .append (.literal (by decide)) (quiet_part hall)
  cases hsuffix : stripSuffix ['*'] device with
  | none => simpa [hsuffix] using hnode
  | some node =>
    rw [stripSuffix_eq_some hsuffix]
    exact .append (by simpa [hsuffix] using hnode) (by decide)

theorem quiet_driver {device : Text} {kind : DeviceClass} (h : deviceClass device = some kind) :
    ∀ driver ∈ kind.drivers, Quiet driver := by
  simp only [deviceClass] at h
  split_ifs at h
  · cases h
    decide
  · cases h
    decide
  · cases h
    decide
  · cases h
    decide
  · obtain ⟨rest, -, hrest⟩ := Option.bind_eq_some_iff.1 h
    split at hrest
    · cases hrest
      rintro driver hdriver
      obtain rfl := List.mem_singleton.1 hdriver
      refine .append (by decide) fun c hc ↦ special_of_alphanumeric ?_
      simp [asciiAlphanumeric, List.mem_takeWhile_imp hc]
    · cases hrest

theorem quiet_allowOf {device allowed : Text} (h : isDevice device = true) (hmem : allowed ∈ allowOf device) :
    Quiet allowed := by
  rw [allowOf] at hmem
  split at hmem
  · next kind hkind =>
    obtain ⟨driver, hdriver, rfl⟩ := List.mem_map.1 hmem
    exact .append (by decide) (quiet_driver hkind driver hdriver)
  · obtain rfl := List.mem_singleton.1 hmem
    exact quiet_device h

end Texts

section Expand

variable {vars vars' : OrdMap Text Text} {name : Option Text} {arg : Text}

theorem isSome_expandFrom (hkeys : ∀ k, (vars.get k).isSome = true → (vars'.get k).isSome = true)
    (h : (expandFrom vars name arg).isSome = true) : (expandFrom vars' name arg).isSome = true := by
  fun_induction expandFrom vars name arg with
  | case1 => rfl
  | case2 => simp at h
  | case3 rest ih => simpa [expandFrom] using ih h
  | case4 => simp at h
  | case5 c rest hopen hc ih =>
    rw [expandFrom.eq_4 vars' c rest hopen, if_neg hc, Option.isSome_map]
    exact ih (by simpa using h)
  | case6 name rest ih =>
    rw [expandFrom.eq_5, if_pos rfl]
    cases hvalue : vars.get name with
    | none => simp [hvalue] at h
    | some value =>
      obtain ⟨value', hvalue'⟩ := Option.isSome_iff_exists.1 (hkeys name (by simp [hvalue]))
      rw [hvalue', Option.bind_some, Option.isSome_map]
      exact ih (by simpa [hvalue] using h)
  | case7 name c rest hc ih =>
    rw [expandFrom.eq_5, if_neg hc]
    exact ih h

theorem quiet_expandFrom (hvars : ∀ k v, vars.get k = some v → Quiet v)
    (harg : arg.any (fun c ↦ quoting c || isControl c) = false) {out : Text}
    (h : expandFrom vars name arg = some out) : Quiet out := by
  fun_induction expandFrom vars name arg generalizing out with
  | case1 =>
    cases h
    exact fun _ hc ↦ absurd hc List.not_mem_nil
  | case2 => cases h
  | case3 rest ih => exact ih (by simp_all) h
  | case4 => cases h
  | case5 c rest hopen hc ih =>
    obtain ⟨tail, htail, rfl⟩ := Option.map_eq_some_iff.1 h
    simp only [List.any_cons, Bool.or_eq_false_iff] at harg
    exact .cons (by simp [special, harg.1.1, harg.1.2, hc]) (ih harg.2 htail)
  | case6 name rest ih =>
    obtain ⟨value, hvalue, hmap⟩ := Option.bind_eq_some_iff.1 h
    obtain ⟨tail, htail, rfl⟩ := Option.map_eq_some_iff.1 hmap
    exact (hvars name value hvalue).append (ih (by simp_all) htail)
  | case7 name c rest hc ih => exact ih (by simp_all) h

end Expand

/-- What the rules leave of the texts a service's unit is made of. -/
structure Admitted (manifest : Manifest) : Prop where
  name : isAppName manifest.name = true
  version : isVersion manifest.version = true
  env : ∀ e ∈ manifest.env.entries, envKeyOk e.1 = true ∧ Quiet e.2
  capabilities : ∀ cap ∈ manifest.privileges.capabilities, cap ∈ allowedCapabilities
  services : ∀ service ∈ manifest.services, isServiceName service.name = true
  exec : ∀ service ∈ manifest.services, service.exec ≠ [] ∧ ∀ arg ∈ service.exec,
    arg.any (fun c ↦ quoting c || isControl c) = false ∧
    (expand arg (variableNames manifest)).isSome = true

section Admit

variable {lib : Libraries} {manifest : Manifest}

theorem of_checkServices {vars : OrdMap Text Text} {seen : List Text} {services : List Service}
    (h : checkServices lib vars seen services = []) :
    ∀ service ∈ services, isServiceName service.name = true ∧ service.exec ≠ [] ∧
    ∀ arg ∈ service.exec,
      arg.any (fun c ↦ quoting c || isControl c) = false ∧ (expand arg vars).isSome = true := by
  induction services generalizing seen with
  | nil => simp
  | cons service services ih =>
    simp only [checkServices, List.append_eq_nil_iff] at h
    obtain ⟨⟨hnamed, hexec⟩, hrest⟩ := h
    simp only [checkExec, List.append_eq_nil_iff] at hexec
    refine List.forall_mem_cons.2 ⟨⟨?_, fun hnil ↦ ?_, fun arg harg ↦ ?_⟩, ih hrest⟩
    · by_contra hname
      rw [if_pos (by rw [Bool.not_eq_true] at hname; rw [hname]; rfl)] at hnamed
      exact List.cons_ne_nil _ _ hnamed
    · simp [hnil] at hexec
    · have hcheck := List.flatMap_eq_nil_iff.1 hexec.2 arg harg
      simp only [checkArg, fails_eq_nil, Bool.or_eq_false_iff, Bool.not_eq_false', Bool.and_eq_true,
        Bool.not_eq_true', Option.isNone_eq_false_iff] at hcheck
      exact ⟨hcheck.1.2, hcheck.2⟩

theorem admitted_of_check {dir : BundleDir} {init : Init} {arch : Text}
    (h : check lib manifest dir init arch = []) : Admitted manifest := by
  simp only [check, checkFields, List.append_eq_nil_iff, fails_eq_nil] at h
  obtain ⟨⟨⟨⟨⟨⟨⟨⟨⟨⟨⟨⟨⟨-, hname⟩, hversion⟩, -⟩, -⟩, -⟩, -⟩, -⟩, henv⟩, -⟩, -⟩, hpriv⟩, -⟩, -⟩ := h
  simp only [checkPrivileges, List.append_eq_nil_iff] at hpriv
  obtain ⟨⟨⟨⟨⟨-, hcaps⟩, -⟩, -⟩, -⟩, hservices⟩ := hpriv
  have hall := of_checkServices hservices
  refine ⟨by simpa using hname, by simpa using hversion, fun e he ↦ ?_, fun cap hcap ↦ ?_,
    fun service hservice ↦ (hall service hservice).1,
    fun service hservice ↦ (hall service hservice).2⟩
  · have hentry := List.flatMap_eq_nil_iff.1 henv e he
    simp only [checkEnv, List.append_eq_nil_iff, fails_eq_nil, List.any_eq_false] at hentry
    exact ⟨by simpa using hentry.1, fun c hc ↦ by simpa [special] using hentry.2 c hc⟩
  · have hcheck := List.flatMap_eq_nil_iff.1 hcaps cap hcap
    rw [checkCapability] at hcheck
    split at hcheck
    · cases hcheck
    · simpa using hcheck

end Admit

section Read

variable {lib : Libraries} {init : Init} {app : Text} {service : Service} {account : Account}
  {devices args : List Text} {text : Text} {vars : OrdMap Text Text}

theorem unit_eq_ok (h : unit lib init app service account devices vars = .ok text) :
    ∃ args data, command lib service account vars = .ok args ∧ (∀ w ∈ args, Quiet w) ∧
      (∀ d ∈ devices, Quiet d) ∧ Quiet data ∧ vars.get "APP_DATA".toList = some data ∧
      text = unitText init app service account devices args data := by
  simp only [unit, bind_eq_ok, forM_eq_ok, orError_eq_ok, pure_eq_ok] at h
  obtain ⟨args, hargs, -, hplain, data, hdata, rfl⟩ := h
  have hquiet : ∀ w ∈ args ++ vars.keys ++ vars.values ++ devices, Quiet w := by
    intro w hw c hc
    have hw := hplain w hw
    simp only [plain, ensure_eq_ok, Bool.not_eq_true', List.any_eq_false] at hw
    simpa using hw c hc
  refine ⟨args, data, hargs, fun w hw ↦ hquiet w (by simp [hw]), fun d hd ↦ hquiet d (by simp [hd]),
    hquiet data ?_, hdata, rfl⟩
  simp only [List.mem_append, OrdMap.mem_values]
  exact .inl (.inr ⟨_, hdata⟩)

theorem command_eq_ok (h : command lib service account vars = .ok args) :
    ∃ dir file rest home tail, vars.get "APP_DIR".toList = some dir ∧
      service.exec = file :: rest ∧ vars.entries.lookup "APP_DATA".toList = some home ∧
      rest.mapM (fun arg ↦ expand arg vars) = some tail ∧
      args = setpriv :: (setprivArgs account ++ env :: "-i".toList ::
        ((("PATH".toList, path) :: ("HOME".toList, home) :: vars.entries).map pairText ++
          (dir ++ '/' :: file) :: tail)) := by
  simp only [command, envArgs, bind_eq_ok, orError_eq_ok, pure_eq_ok] at h
  obtain ⟨dir, hdir, file, hfile, run, ⟨home, hhome, rfl⟩, tail, htail, rfl⟩ := h
  obtain ⟨rest, hexec⟩ : ∃ rest, service.exec = file :: rest := by
    cases hlist : service.exec with
    | nil => simp [hlist] at hfile
    | cons f rest =>
      obtain rfl : f = file := by simpa [hlist] using hfile
      exact ⟨rest, rfl⟩
  refine ⟨dir, file, rest, home, tail, hdir, hexec, hhome, ?_, ?_⟩
  · rw [hexec, List.tail_cons] at htail
    exact mapM_orError_eq_ok.1 htail
  · simp [pairText]

theorem plain_of_quiet {w : Text} (h : Quiet w) : plain lib w = .ok () := by
  rw [plain, ensure_eq_ok, Bool.not_eq_true', List.any_eq_false]
  exact fun c hc ↦ by simp [h c hc]

theorem exists_unit {vars : OrdMap Text Text} {home root file : Text} {rest args : List Text}
    (hroot : vars.get "APP_DIR".toList = some root) (hhome : vars.get "APP_DATA".toList = some home)
    (hexec : service.exec = file :: rest) (hargs : rest.mapM (expandArg lib vars) = .ok args)
    (haccount : ∀ w ∈ setprivArgs account, Quiet w)
    (hvars : ∀ k v, vars.get k = some v → Quiet k ∧ Quiet v)
    (hquiet : ∀ w ∈ root :: file :: (args ++ devices), Quiet w) :
    ∃ text, unit lib init app service account devices vars = .ok text := by
  simp only [List.forall_mem_cons, List.forall_mem_append] at hquiet
  obtain ⟨hquietRoot, hquietFile, hquietArgs, hquietDevices⟩ := hquiet
  have hpairs : ∀ w ∈ vars.entries.map pairText, Quiet w := fun w hw ↦ by
    obtain ⟨⟨k, v⟩, he, rfl⟩ := List.mem_map.1 hw
    obtain ⟨hk, hv⟩ := hvars k v (OrdMap.get_eq_some_iff.2 he)
    exact hk.append (Quiet.append (s := ['=']) (by decide) hv)
  have hrun : Quiet (root ++ '/' :: file) :=
    hquietRoot.append (Quiet.append (s := ['/']) (by decide) hquietFile)
  have hkeys : ∀ k ∈ vars.keys, Quiet k := fun k hk ↦ by
    obtain ⟨v, hv⟩ := OrdMap.mem_keys.1 hk
    exact (hvars k v hv).1
  have hvalues : ∀ v ∈ vars.values, Quiet v := fun v hv ↦ by
    obtain ⟨k, hk⟩ := OrdMap.mem_values.1 hv
    exact (hvars k v hk).2
  refine ⟨_, bind_eq_ok.2 ⟨setpriv :: (setprivArgs account ++ ([env, "-i".toList, "PATH=".toList ++ path,
    "HOME=".toList ++ home] ++ vars.entries.map pairText ++ [root ++ '/' :: file]) ++ args), ?_,
    bind_eq_ok.2 ⟨(), forM_eq_ok.2 fun w hw ↦ plain_of_quiet ((?_ : ∀ w ∈ _, Quiet w) w hw),
      bind_eq_ok.2 ⟨home, orError_eq_ok.2 hhome, rfl⟩⟩⟩⟩
  · simp only [command, envArgs, bind_eq_ok, orError_eq_ok, pure_eq_ok, OrdMap.lookup_entries]
    exact ⟨root, hroot, file, by rw [hexec]; rfl, _, ⟨home, hhome, rfl⟩, args, by rw [hexec]; exact hargs, rfl⟩
  · simp only [List.forall_mem_append, List.forall_mem_cons]
    refine ⟨⟨⟨⟨.literal (by decide), ⟨haccount, ⟨⟨?_, ?_, ?_, ?_, by simp⟩, hpairs⟩, hrun, by simp⟩,
      hquietArgs⟩, hkeys⟩, hvalues⟩, hquietDevices⟩
    · exact .literal (by decide)
    · exact .literal (by decide)
    · exact .append (.literal (by decide)) (.literal (by decide))
    · exact .append (.literal (by decide)) (hvars _ home hhome).2

end Read

section Vars

variable {manifest : Manifest} (name : Text)

def appDir (name : Text) : Text := "/mica/apps/".toList ++ name ++ "/current".toList

def appData (name : Text) : Text := "/srv/apps/".toList ++ name

theorem mem_envOf {name k v : Text} (h : (varsOf name manifest).get k = some v) :
    (k, v) ∈ envOf name manifest := by
  rcases OrdMap.of_get_foldl h with hnone | hmem
  · simp at hnone
  · exact hmem

theorem not_app_of_envKeyOk {key : Text} (h : envKeyOk key = true) :
    ∀ k ∈ appVariables, key ≠ k := by
  rintro k hk rfl
  have hall : ∀ k ∈ appVariables, envKeyOk k = false := by decide
  simp [hall _ hk] at h

theorem varsOf_get (h : Admitted manifest) {k : Text} (hk : k ∈ appVariables) :
    (varsOf name manifest).get k =
      (OrdMap.ofList [("APP_NAME".toList, name), ("APP_VERSION".toList, manifest.version),
        ("APP_DIR".toList, appDir name), ("APP_DATA".toList, appData name)]).get k := by
  rw [varsOf, envOf, OrdMap.ofList, List.foldl_append]
  exact OrdMap.get_foldl_of_not_mem (fun e he ↦ not_app_of_envKeyOk (h.env e he).1 k hk) _

theorem varsOf_get_dir (h : Admitted manifest) :
    (varsOf name manifest).get "APP_DIR".toList = some (appDir name) := by
  rw [varsOf_get name h (by decide)]
  rfl

theorem varsOf_get_data (h : Admitted manifest) :
    (varsOf name manifest).get "APP_DATA".toList = some (appData name) := by
  rw [varsOf_get name h (by decide)]
  rfl

end Vars

section Render

variable {lib : Libraries} {manifest : Manifest} {account : Account}

theorem quiet_envKey {key : Text} (h : envKeyOk key = true) : Quiet key := by
  simp only [envKeyOk, Bool.and_eq_true] at h
  refine .of_marks "_" (by decide) (List.all_eq_true.2 fun c hc ↦ ?_)
  have hkey := List.all_eq_true.1 h.1.2 c hc
  simp only [Bool.or_eq_true, beq_iff_eq] at hkey
  rcases hkey with (hupper | hdigit) | rfl
  · have hletter : asciiAlphabetic c = true := by
      simp only [asciiAlphabetic, Bool.or_eq_true]
      exact .inr hupper
    simp [asciiAlphanumeric, hletter]
  · simp [asciiAlphanumeric, hdigit]
  · decide

theorem Admitted.quiet_vars (h : Admitted manifest) {k v : Text}
    (hget : (varsOf manifest.name manifest).get k = some v) : Quiet k ∧ Quiet v := by
  have hname := quiet_appName h.name
  rcases List.mem_append.1 (mem_envOf hget) with happ | henv
  · simp only [List.mem_cons, Prod.mk.injEq, List.not_mem_nil, or_false] at happ
    rcases happ with ⟨rfl, rfl⟩ | ⟨rfl, rfl⟩ | ⟨rfl, rfl⟩ | ⟨rfl, rfl⟩
    · exact ⟨.literal (by decide), hname⟩
    · exact ⟨.literal (by decide), quiet_version h.version⟩
    · exact ⟨.literal (by decide), (Quiet.literal (by decide)).append hname |>.append (.literal (by decide))⟩
    · exact ⟨.literal (by decide), (Quiet.literal (by decide)).append hname⟩
  · exact ⟨quiet_envKey (h.env _ henv).1, (h.env _ henv).2⟩

theorem isSome_varsOf {k : Text} (h : ((variableNames manifest).get k).isSome = true) :
    ((varsOf manifest.name manifest).get k).isSome = true := by
  obtain ⟨v, hv⟩ := Option.isSome_iff_exists.1 h
  rcases OrdMap.of_get_foldl hv with hnone | hmem
  · simp at hnone
  · obtain ⟨key, hkey, heq⟩ := List.mem_map.1 hmem
    obtain rfl : key = k := congrArg Prod.fst heq
    exact OrdMap.isSome_get_foldl (.inl (by simpa [envOf, appVariables, OrdMap.keys] using hkey))

theorem quiet_setprivArgs (h : ∀ cap ∈ account.capabilities, cap ∈ allowedCapabilities) :
    ∀ w ∈ setprivArgs account, Quiet w := by
  have hallowed : ∀ cap ∈ allowedCapabilities, Quiet (capArg cap) := by decide
  have hcaps : Quiet (join [','] ("-all".toList :: account.capabilities.map capArg)) := by
    refine .join (by decide) (List.forall_mem_cons.2 ⟨by decide, fun w hw ↦ ?_⟩)
    obtain ⟨name, hname, rfl⟩ := List.mem_map.1 hw
    exact hallowed name (h name hname)
  have hgroups : Quiet (join [','] (account.groups.map numeral)) := by
    refine .join (by decide) fun w hw ↦ ?_
    obtain ⟨n, -, rfl⟩ := List.mem_map.1 hw
    exact .numeral n
  simp only [setprivArgs, List.forall_mem_cons]
  refine ⟨.append (.literal (by decide)) (.numeral _),
    .append (.literal (by decide)) (.numeral _), ?_,
    .append (.literal (by decide)) hcaps, .append (.literal (by decide)) hcaps,
    .append (.literal (by decide)) hcaps, .literal (by decide), .literal (by decide), by simp⟩
  split
  · exact .literal (by decide)
  · exact .append (.literal (by decide)) hgroups

theorem exists_args (lib : Libraries) {vars : OrdMap Text Text}
    (hvars : ∀ k v, vars.get k = some v → Quiet v) {args : List Text}
    (h : ∀ arg ∈ args, arg.any (fun c ↦ quoting c || isControl c) = false ∧
    (expand arg vars).isSome = true) :
    ∃ out, args.mapM (expandArg lib vars) = .ok out ∧ ∀ w ∈ out, Quiet w := by
  induction args with
  | nil => exact ⟨[], rfl, by simp⟩
  | cons arg args ih =>
    obtain ⟨harg, hargs⟩ := List.forall_mem_cons.1 h
    obtain ⟨out, hout, hquiet⟩ := ih hargs
    obtain ⟨w, hw⟩ := Option.isSome_iff_exists.1 harg.2
    refine ⟨w :: out, ?_, List.forall_mem_cons.2 ⟨quiet_expandFrom hvars harg.1 hw, hquiet⟩⟩
    rw [List.mapM_cons, bind_eq_ok]
    exact ⟨w, orError_eq_ok.2 hw, bind_eq_ok.2 ⟨out, hout, rfl⟩⟩

theorem not_mem_of_unit {init : Init} {app : Text} {service : Service} {devices : List Text}
    {vars : OrdMap Text Text}
    {text file : Text} (h : unit lib init app service account devices vars = .ok text)
    (hfile : service.exec.head? = some file) : '$' ∉ file := by
  intro hmem
  obtain ⟨args, -, hcommand, hquiet, -⟩ := unit_eq_ok h
  obtain ⟨root, file', rest, home, tail, -, heq, -, -, rfl⟩ := command_eq_ok hcommand
  obtain rfl : file' = file := by simpa [heq] using hfile
  have hrun : Quiet (root ++ '/' :: file') := hquiet _ (by simp)
  exact hrun.not_mem (c := '$') (by decide) (by simp [hmem])

variable {init : Init} {service : Service} {devices : List Text}

theorem Admitted.exists_unit (h : Admitted manifest) (hservice : service ∈ manifest.services)
    (haccount : ∀ cap ∈ account.capabilities, cap ∈ manifest.privileges.capabilities)
    (hdevices : Granted devices) (hfile : ∀ file, service.exec.head? = some file → '$' ∉ file) :
    ∃ text, unit lib init manifest.name service account devices (varsOf manifest.name manifest) =
      .ok text := by
  obtain ⟨hne, hexec⟩ := h.exec service hservice
  obtain ⟨file, rest, heq⟩ := List.exists_cons_of_ne_nil hne
  rw [heq, List.forall_mem_cons] at hexec
  have hvars : ∀ k v, (varsOf manifest.name manifest).get k = some v → Quiet v :=
    fun k v hget ↦ (h.quiet_vars hget).2
  obtain ⟨args, hargs, hquiet⟩ := exists_args lib hvars fun arg harg ↦
    ⟨(hexec.2 arg harg).1, isSome_expandFrom (fun k ↦ isSome_varsOf) (hexec.2 arg harg).2⟩
  refine Apps.exists_unit (varsOf_get_dir _ h) (varsOf_get_data _ h) heq hargs
    (quiet_setprivArgs fun cap hcap ↦ h.capabilities cap (haccount cap hcap))
      (fun k v ↦ h.quiet_vars) ?_
  simp only [List.forall_mem_cons, List.forall_mem_append]
  refine ⟨hvars _ _ (varsOf_get_dir _ h), fun c hc ↦ ?_, hquiet, fun allowed hallowed ↦ ?_⟩
  · have hplain := List.any_eq_false.1 hexec.1.1 c hc
    have hdollar : c ≠ '$' := fun hc' ↦ hfile file (by simp [heq]) (hc' ▸ hc)
    simpa [special, hdollar] using hplain
  · obtain ⟨device, hdevice, hmem⟩ := hdevices allowed hallowed
    exact quiet_allowOf hdevice hmem

/-- An admitted service renders exactly where its file has no `$`. -/
theorem exists_unit_iff {dir : BundleDir} {arch : Text}
    (hcheck : check lib manifest dir init arch = []) (hservice : service ∈ manifest.services)
    (haccount : ∀ cap ∈ account.capabilities, cap ∈ manifest.privileges.capabilities)
    (hdevices : Granted devices) :
    (∃ text, unit lib init manifest.name service account devices (varsOf manifest.name manifest) = .ok text) ↔
      ∀ file, service.exec.head? = some file → '$' ∉ file :=
  ⟨fun ⟨_, hunit⟩ _ hfile ↦ not_mem_of_unit hunit hfile,
    fun hfile ↦ (admitted_of_check hcheck).exists_unit hservice haccount hdevices hfile⟩

end Render

def oneService (file : String) : Manifest where
  schemaVersion := 1
  name := "tailscale".toList
  version := "1.104.2".toList
  arch := ["arm64".toList]
  env := .ofList [("TS_SOCKET".toList, "/srv/apps/tailscale/tailscaled.sock".toList)]
  privileges := { capabilities := ["CAP_NET_ADMIN".toList], devices := ["/dev/net/tun".toList] }
  services := [{
    name := "tailscaled".toList
    exec := [file.toList, "--socket=$\x7bTS_SOCKET\x7d".toList, "100%".toList]
    enable := true }]

def plainLibraries : Libraries := ⟨id, fun _ ↦ none⟩

def executables : BundleDir := ⟨fun _ ↦ some (true, 0o755), fun _ ↦ false⟩

def tunAccount : Account := ⟨30000, [44], ["CAP_NET_ADMIN".toList]⟩

theorem granted_tun : Granted ["/dev/net/tun".toList] := fun _ hallowed ↦
  ⟨"/dev/net/tun".toList, by decide, hallowed⟩

theorem exists_unit_iff_tailscaled :
    ∃ text, unit plainLibraries .systemd (oneService "files/tailscaled").name
      ⟨"tailscaled".toList, ["files/tailscaled".toList, "--socket=$\x7bTS_SOCKET\x7d".toList, "100%".toList], true⟩
      tunAccount ["/dev/net/tun".toList] (varsOf (oneService "files/tailscaled").name
        (oneService "files/tailscaled")) = .ok text := by
  have hcheck : check plainLibraries (oneService "files/tailscaled")
      executables .systemd "arm64".toList = [] := by
    decide
  have hfile : '$' ∉ "files/tailscaled".toList := by decide
  exact (exists_unit_iff hcheck (List.mem_singleton.2 rfl) (fun _ hcap ↦ hcap) granted_tun).2
    fun _ hhead ↦ Option.some.inj hhead ▸ hfile

/-- A file name with a dollar sign passes the check and has no unit. -/
theorem not_forall_exists_unit :
    ¬ ∀ (lib : Libraries) (manifest : Manifest) (dir : BundleDir) (init : Init) (arch : Text)
      (service : Service) (account : Account) (devices : List Text),
      check lib manifest dir init arch = [] → manifest.privileges.user = .app →
      service ∈ manifest.services →
      (∀ cap ∈ account.capabilities, cap ∈ manifest.privileges.capabilities) → Granted devices →
      ∃ text, unit lib init manifest.name service account devices (varsOf manifest.name manifest) = .ok text := by
  intro hall
  have hcheck : check plainLibraries (oneService "files/$\x7bAPP_NAME\x7d") executables .systemd
      "arm64".toList = [] := by
    decide
  obtain ⟨text, hunit⟩ := hall plainLibraries _ executables .systemd "arm64".toList _ tunAccount
    [] hcheck rfl
    (List.mem_singleton.2 rfl) (by decide) (fun _ hnone ↦ absurd hnone List.not_mem_nil)
  have hmem : '$' ∈ "files/$\x7bAPP_NAME\x7d".toList := by decide
  exact not_mem_of_unit hunit rfl hmem

end MicaCore.Apps
