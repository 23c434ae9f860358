import MicaCore.Apps.Admitted

namespace MicaCore.Apps

open Data

def commandLine (m : Systemd.Manager) : Init → Text → Option Systemd.Command
  | .systemd, text =>
    match Systemd.valuesOf "Service".toList "ExecStart".toList false (Systemd.parse text) with
    | [line] => Systemd.execStart m line
    | _ => none
  | .openrc, text => do
    let vars ← Shell.scriptVariables text
    let command ← Shell.valueOf "command".toList vars
    let args ← Shell.valueOf "command_args".toList vars
    let words ← Shell.words (command ++ ' ' :: args)
    let path ← words.head?
    pure ⟨path, words⟩

def afterOptions (argv : List Text) : List Text := (argv.dropWhile (· != "--".toList)).tail

def leadingAssignments : List Text → List (Text × Text) × List Text
  | [] => ([], [])
  | w :: ws =>
    match splitOnce '=' w with
    | some a => (a :: (leadingAssignments ws).1, (leadingAssignments ws).2)
    | none => ([], w :: ws)

structure EnvRun where
  assigned : List (Text × Text)
  program : Text
  args : List Text
  deriving DecidableEq

def envRun : List Text → Option EnvRun
  | name :: flag :: words =>
    if name = env ∧ flag = "-i".toList then
      match leadingAssignments words with
      | (assigned, program :: args) => some ⟨assigned, program, args⟩
      | (_, []) => none
    else none
  | _ => none

def environment (manifest : Manifest) : List (Text × Text) :=
  ("PATH".toList, path) :: ("HOME".toList, appData manifest.name) ::
    (varsOf manifest.name manifest).entries

/-- The unit runs setpriv, then `env -i`, then the declared file with its expanded arguments. -/
def RunsDeclared (m : Systemd.Manager) (init : Init) (manifest : Manifest) (service : Service)
    (account : Account) (text : Text) : Prop :=
  ∃ file rest args, service.exec = file :: rest ∧
    rest.mapM (fun arg ↦ expand arg (varsOf manifest.name manifest)) = some args ∧
    ∃ argv, commandLine m init text = some ⟨setpriv, argv⟩ ∧
      argv = setpriv :: (setprivArgs account ++ env :: "-i".toList ::
        ((environment manifest).map pairText ++ (appDir manifest.name ++ '/' :: file) :: args)) ∧
      envRun (afterOptions argv) =
        some ⟨environment manifest, appDir manifest.name ++ '/' :: file, args⟩

theorem leadingAssignments_append {es : List (Text × Text)} (h : ∀ e ∈ es, '=' ∉ e.1)
    (words : List Text) :
    leadingAssignments (es.map pairText ++ words) =
      (es ++ (leadingAssignments words).1, (leadingAssignments words).2) := by
  induction es with
  | nil => rfl
  | cons e es ih =>
    obtain ⟨he, hes⟩ := List.forall_mem_cons.1 h
    simp [leadingAssignments, pairText, splitOnce_append _ he, ih hes]

theorem afterOptions_append {options : List Text} (h : "--".toList ∉ options) (words : List Text) :
    afterOptions (options ++ "--".toList :: words) = words := by
  induction options with
  | nil => simp [afterOptions]
  | cons w options ih =>
    simp only [List.mem_cons, not_or] at h
    have hw : (w != "--".toList) = true := bne_iff_ne.2 (Ne.symm h.1)
    rw [afterOptions, List.cons_append, List.dropWhile_cons, if_pos hw]
    exact ih h.2

theorem ne_dashes {p : Text} (h : 2 < p.length) (t : Text) : "--".toList ≠ p ++ t := by
  intro heq
  have hlen := congrArg List.length heq
  have htwo : "--".toList.length = 2 := by decide
  rw [List.length_append] at hlen
  omega

theorem afterOptions_setprivArgs (account : Account) (words : List Text) :
    afterOptions (setpriv :: (setprivArgs account ++ words)) = words := by
  have hgroups : "--".toList ≠ (if account.groups.isEmpty then "--clear-groups".toList
      else "--groups=".toList ++ join [','] (account.groups.map numeral)) := by
    split
    · decide
    · exact ne_dashes (by decide) _
  suffices hoptions : "--".toList ∉ setpriv :: (setprivArgs account).dropLast from
    afterOptions_append hoptions words
  simp only [setprivArgs, List.dropLast, List.mem_cons, List.not_mem_nil, or_false, not_or]
  exact ⟨by decide, ne_dashes (by decide) _, ne_dashes (by decide) _, hgroups,
    ne_dashes (by decide) _, ne_dashes (by decide) _, ne_dashes (by decide) _, by decide⟩

theorem envRun_iff {es : List (Text × Text)} (h : ∀ e ∈ es, '=' ∉ e.1) (file : Text)
    (args : List Text) :
    envRun (env :: "-i".toList :: (es.map pairText ++ file :: args)) = some ⟨es, file, args⟩ ↔
      '=' ∉ file := by
  rw [envRun, if_pos ⟨rfl, rfl⟩, leadingAssignments_append h]
  cases hsplit : splitOnce '=' file with
  | none =>
    have hfile := not_mem_of_splitOnce_eq_none hsplit
    simp [leadingAssignments, hsplit, hfile]
  | some a =>
    have hmem : '=' ∈ file := by
      rw [splitOnce_eq_some hsplit]
      simp
    simp only [leadingAssignments, hsplit, hmem, not_true, iff_false]
    split
    · intro heq
      simp_all
    · simp

section Read

variable {lib : Libraries} {m : Systemd.Manager} {init : Init} {app : Text} {service : Service}
  {account : Account} {devices args : List Text} {data text : Text} {vars : OrdMap Text Text}

/-- The texts a unit is made of, none with a special character. -/
structure Sound (app : Text) (service : Service) (account : Account) (devices args : List Text)
    (data : Text) : Prop where
  app : Quiet app
  name : Quiet service.name
  args : ∀ w ∈ args, Quiet w
  capabilities : ∀ cap ∈ account.capabilities, Quiet cap
  devices : ∀ d ∈ devices, Quiet d
  data : Quiet data

theorem calm_literal {cs : List Char} (h : cs.all (fun c ↦ !special c) = true) :
    Systemd.Calm (String.ofList cs).toList :=
  (Quiet.literal h).calm

theorem calm_join {sep : Text} {ts : List Text} (hsep : Systemd.Calm sep)
    (h : ∀ t ∈ ts, Systemd.Calm t) : Systemd.Calm (join sep ts) := by
  intro c hc
  rcases of_mem_join hc with hc | ⟨t, ht, hc⟩
  · exact hsep c hc
  · exact h t ht c hc

theorem calm_quoted {w : Text} (h : Quiet w) : Systemd.Calm (quoted (Systemd.escapePercent w)) := by
  intro c hc
  simp only [quoted, List.mem_cons, List.mem_append, List.not_mem_nil, or_false,
    Systemd.mem_escapePercent] at hc
  rcases hc with rfl | hc | rfl
  · decide
  · exact h.calm c hc
  · decide

def lineKey : Systemd.Line → Option Text
  | .gap => none
  | .header name => some name
  | .assign key _ => some key

def lineValue : Systemd.Line → Option Text
  | .assign _ value => some value
  | _ => none

theorem tame_of_keys {ls : List Systemd.Line}
    (hkeys : ∀ k ∈ ls.filterMap lineKey, (!k.isEmpty && k.all Char.isAlphanum) = true) :
    ∀ l ∈ ls, l.Tame := by
  have h : ∀ k ∈ ls.filterMap lineKey, k ≠ [] ∧ ∀ c ∈ k, c.isAlphanum = true := fun k hk ↦ by
    simpa using hkeys k hk
  intro l hl
  cases l with
  | gap => trivial
  | header name => exact h name (List.mem_filterMap.2 ⟨_, hl, rfl⟩)
  | assign key value => exact h key (List.mem_filterMap.2 ⟨_, hl, rfl⟩)

theorem tame_systemdLines : ∀ l ∈ systemdLines app service account devices args data, l.Tame := by
  refine tame_of_keys ?_
  rw [systemdLines, List.filterMap_append, List.filterMap_append, List.filterMap_map]
  intro k hk
  rw [List.mem_append, List.mem_append] at hk
  rcases hk with (hk | hk) | hk
  · have hfixed : ∀ k ∈ ["Unit", "Description", "Wants", "After", "RequiresMountsFor", "Service",
        "WorkingDirectory", "ExecStart", "SyslogIdentifier", "Restart", "RestartSec",
        "NoNewPrivileges", "ProtectSystem", "ReadWritePaths", "PrivateTmp", "ProtectHome",
        "ProtectKernelTunables", "ProtectKernelModules", "ProtectControlGroups",
        "RestrictSUIDSGID", "CapabilityBoundingSet", "DevicePolicy"].map String.toList,
        (!k.isEmpty && k.all Char.isAlphanum) = true := by
      decide +kernel
    exact hfixed k hk
  · obtain ⟨d, -, hd⟩ := List.mem_filterMap.1 hk
    obtain rfl : "DeviceAllow".toList = k := by simpa [assign, lineKey] using hd
    decide +kernel
  · have hfixed : ∀ k ∈ ["Install", "WantedBy"].map String.toList,
        (!k.isEmpty && k.all Char.isAlphanum) = true := by
      decide +kernel
    exact hfixed k hk

theorem calm_systemdLines (h : Sound app service account devices args data) :
    ∀ key value, .assign key value ∈ systemdLines app service account devices args data →
      Systemd.Calm value := by
  have hexec : Systemd.Calm (join [' '] (args.map fun w ↦ quoted (Systemd.escapePercent w))) :=
    calm_join (Quiet.calm (by decide)) fun t ht ↦ by
      obtain ⟨w, hw, rfl⟩ := List.mem_map.1 ht
      exact calm_quoted (h.args w hw)
  have hcaps : Systemd.Calm (join [' '] (["CAP_SETUID".toList, "CAP_SETGID".toList,
      "CAP_SETPCAP".toList] ++ account.capabilities)) :=
    calm_join (Quiet.calm (by decide)) fun t ht ↦ by
      rcases List.mem_append.1 ht with ht | ht
      · have hfixed : ∀ t ∈ ["CAP_SETUID".toList, "CAP_SETGID".toList, "CAP_SETPCAP".toList],
            Quiet t := by
          decide
        exact (hfixed t ht).calm
      · exact (h.capabilities t ht).calm
  have hdesc : Quiet (app ++ ": ".toList ++ service.name) :=
    (h.app.append (.literal (by decide))).append h.name
  have hmounts : Quiet ("/mica/apps/".toList ++ app ++ ' ' :: data) :=
    (Quiet.append (.literal (by decide)) h.app).append (Quiet.append (s := [' ']) (by decide) h.data)
  have hvalues : ∀ v ∈ (systemdLines app service account devices args data).filterMap lineValue,
      Systemd.Calm v := by
    rw [systemdLines, List.filterMap_append, List.filterMap_append, List.filterMap_map]
    refine List.forall_mem_append.2 ⟨List.forall_mem_append.2 ⟨?_, fun v hv ↦ ?_⟩, ?_⟩
    · change ∀ v ∈ [_, _, _, _, _, _, _, _, _, _, _, _, _, _, _, _, _, _, _, _], Systemd.Calm v
      simp only [List.forall_mem_cons]
      exact ⟨hdesc.calm, calm_literal (by decide), calm_literal (by decide), hmounts.calm, h.data.calm, hexec,
        h.name.calm, calm_literal (by decide), calm_literal (by decide), calm_literal (by decide),
        calm_literal (by decide), h.data.calm, calm_literal (by decide), calm_literal (by decide),
        calm_literal (by decide), calm_literal (by decide), calm_literal (by decide),
        calm_literal (by decide), hcaps, calm_literal (by decide), by simp⟩
    · obtain ⟨d, hd, hv⟩ := List.mem_filterMap.1 hv
      obtain rfl : d ++ " rw".toList = v := Option.some.inj hv
      exact ((h.devices d hd).append (.literal (by decide))).calm
    · change ∀ v ∈ ["multi-user.target".toList], Systemd.Calm v
      exact List.forall_mem_singleton.2 (calm_literal (by decide))
  intro key value hmem
  exact hvalues value (List.mem_filterMap.2 ⟨_, hmem, rfl⟩)

theorem quiet_notice (h : Quiet app) : Quiet (notice app account) :=
  ((Quiet.append (Quiet.append (.literal (by decide)) h) (.literal (by decide))).append (.numeral _)).append
    (.literal (by decide))

theorem join_cons_cons (sep t u : Text) (ts : List Text) :
    join sep (t :: u :: ts) = t ++ sep ++ join sep (u :: ts) := by
  simp [join, List.intercalate]

theorem edges_join_quoted {w : Text} {ws : List Text} {f : Text → Text} :
    Systemd.Edges (join [' '] ((w :: ws).map fun w ↦ quoted (f w))) := by
  have hlast : ∃ t, join [' '] ((w :: ws).map fun w ↦ quoted (f w)) = t ++ ['"'] := by
    induction ws generalizing w with
    | nil => exact ⟨'"' :: f w, by simp [join, quoted]⟩
    | cons v ws ih =>
      obtain ⟨t, ht⟩ := ih (w := v)
      refine ⟨quoted (f w) ++ [' '] ++ t, ?_⟩
      rw [List.map_cons, List.map_cons, join_cons_cons, ← List.map_cons (f := fun w ↦ quoted (f w)), ht]
      simp
  have hhead : ∃ t, join [' '] ((w :: ws).map fun w ↦ quoted (f w)) = '"' :: t := by
    cases ws with
    | nil => exact ⟨_, by simp [join, quoted]; rfl⟩
    | cons v ws => exact ⟨_, by rw [List.map_cons, List.map_cons, join_cons_cons]; rfl⟩
  obtain ⟨t, ht⟩ := hlast
  obtain ⟨u, hu⟩ := hhead
  refine ⟨fun c hc ↦ ?_, fun c hc ↦ ?_⟩
  · rw [hu, List.head?_cons, Option.mem_some_iff] at hc
    exact hc ▸ by decide
  · rw [ht, List.getLast?_concat, Option.mem_some_iff] at hc
    exact hc ▸ by decide

theorem valuesOf_systemdLines :
    Systemd.valuesOf "Service".toList "ExecStart".toList false
      ((systemdLines app service account devices args data).filterMap Systemd.Line.read) =
      [Systemd.strip (join [' '] (args.map fun w ↦ quoted (Systemd.escapePercent w)))] := by
  have hdevices : (devices.map fun device ↦ assign "DeviceAllow" (device ++ " rw".toList)).filterMap
      Systemd.Line.read = (devices.map fun device ↦
        ("DeviceAllow".toList, Systemd.strip (device ++ " rw".toList))).map
          fun e ↦ Systemd.Item.assignment e.1 e.2 := by
    rw [List.filterMap_map, List.map_map, ← List.filterMap_eq_map]
    rfl
  rw [systemdLines, List.filterMap_append, List.filterMap_append, hdevices, List.append_assoc]
  refine Eq.trans (b := _ :: Systemd.valuesOf "Service".toList "ExecStart".toList true
    ((devices.map fun device ↦ ("DeviceAllow".toList, Systemd.strip (device ++ " rw".toList))).map
      (fun e ↦ Systemd.Item.assignment e.1 e.2) ++ _)) rfl ?_
  rw [Systemd.valuesOf_append_of_ne]
  · rfl
  · intro e he
    obtain ⟨d, -, rfl⟩ := List.mem_map.1 he
    exact (by decide : "DeviceAllow".toList ≠ "ExecStart".toList)

theorem commandLine_systemd (h : Sound app service account devices args data) {words : List Text}
    (hargs : args = setpriv :: words) :
    commandLine m .systemd (unitText .systemd app service account devices args data) =
      some ⟨setpriv, args⟩ := by
  subst hargs
  rw [commandLine, unitText, Systemd.parse_comment (fun c hc ↦ ((quiet_notice h.app).calm c hc).1) rfl,
    Systemd.parse_file_of_calm tame_systemdLines (calm_systemdLines h), valuesOf_systemdLines,
    Systemd.strip_of_edges edges_join_quoted]
  refine Systemd.execStart_line (fun w hw c hc ↦ ?_) rfl
  have hw := h.args w hw
  exact ⟨fun heq ↦ hw.not_mem (by decide) (heq ▸ hc), fun heq ↦ hw.not_mem (by decide) (heq ▸ hc),
    fun heq ↦ hw.not_mem (by decide) (heq ▸ hc)⟩

theorem inert_line (h : ∀ w ∈ args, Quiet w) :
    Shell.Inert (join [' '] (args.map Shell.singleQuoted)) := by
  intro c hc
  rcases of_mem_join hc with hc | ⟨t, ht, hc⟩
  · obtain rfl : c = ' ' := by simpa using hc
    decide
  · obtain ⟨w, hw, rfl⟩ := List.mem_map.1 ht
    simp only [Shell.singleQuoted, List.mem_cons, List.mem_append, List.not_mem_nil, or_false] at hc
    rcases hc with rfl | hc | rfl
    · decide
    · exact (h w hw).inert c hc
    · decide

theorem inert_chdir (h : Quiet data) :
    Shell.Inert ("--chdir ".toList ++ Shell.singleQuoted data) := by
  intro c hc
  simp only [Shell.singleQuoted, List.mem_append, List.mem_cons, List.not_mem_nil, or_false] at hc
  rcases hc with hc | rfl | hc | rfl
  · exact (Quiet.literal (by decide) : Quiet "--chdir ".toList).inert c hc
  · decide
  · exact h.inert c hc
  · decide

theorem scriptVariables_openrcText (h : Sound app service account devices args data) :
    Shell.scriptVariables (openrcText app service account args data) =
      some [("description".toList, app ++ ": ".toList ++ service.name),
        ("supervisor".toList, "supervise-daemon".toList), ("command".toList, setpriv),
        ("command_args".toList, join [' '] (args.tail.map Shell.singleQuoted)),
        ("supervise_daemon_args".toList, "--chdir ".toList ++ Shell.singleQuoted data)] := by
  have hdesc : Quiet (app ++ ": ".toList ++ service.name) :=
    (h.app.append (.literal (by decide))).append h.name
  obtain ⟨notice', hcons⟩ : ∃ t, notice app account = '#' :: t := ⟨_, rfl⟩
  have hnotice : '\n' ∉ notice' := fun hmem ↦
    (quiet_notice h.app).not_mem (by decide) (hcons ▸ List.mem_cons_of_mem _ hmem)
  have htail : Shell.scriptVariables (Shell.unlines [[], "depend() \x7b".toList,
      "\tneed mica-mounts".toList, "\tafter net".toList, "\x7d".toList]) = some [] := by
    decide
  have hfirst : "#!/sbin/openrc-run".toList = '#' :: "!/sbin/openrc-run".toList := by decide
  have hname : ∀ name ∈ ["description", "supervisor", "command", "command_args",
      "supervise_daemon_args"].map String.toList, Shell.IsName name := by
    decide
  have hshebang' : '\n' ∉ "!/sbin/openrc-run".toList := by decide
  have hdaemon : "supervise-daemon".toList.all Shell.literal = true := by decide
  have hsetpriv : setpriv.all Shell.literal = true := by decide
  rw [openrcText, hcons, hfirst, Shell.unlines_cons, Shell.scriptVariables_comment hshebang',
    Shell.unlines_cons, Shell.scriptVariables_comment hnotice,
    Shell.unlines_cons, List.nil_append, Shell.scriptVariables_gap,
    Shell.unlines_cons, Shell.scriptVariables_quoted (hname _ (by simp)) hdesc.inert,
    Shell.unlines_cons, Shell.scriptVariables_bare (hname _ (by simp)) hdaemon,
    Shell.unlines_cons, Shell.scriptVariables_bare (hname _ (by simp)) hsetpriv,
    Shell.unlines_cons, Shell.scriptVariables_quoted (hname _ (by simp))
      (inert_line fun w hw ↦ h.args w (List.mem_of_mem_tail hw)),
    Shell.unlines_cons, Shell.scriptVariables_quoted
      (hname _ (by simp)) (inert_chdir h.data), htail]
  rfl

theorem commandLine_openrc (h : Sound app service account devices args data) {words : List Text}
    (hargs : args = setpriv :: words) :
    commandLine m .openrc (unitText .openrc app service account devices args data) =
      some ⟨setpriv, args⟩ := by
  have hwords : Shell.words (setpriv ++ ' ' :: join [' '] (args.tail.map Shell.singleQuoted)) =
      some (setpriv :: args.tail) :=
    Shell.words_command (by decide) (by decide) fun w hw ↦
      (h.args w (List.mem_of_mem_tail hw)).not_mem (by decide)
  simp only [commandLine, unitText, scriptVariables_openrcText h, Option.bind_eq_bind,
    Option.bind_some]
  change (Shell.words (setpriv ++ ' ' :: join [' '] (args.tail.map Shell.singleQuoted))).bind _ = _
  rw [hwords, hargs]
  rfl

end Read

theorem not_mem_of_envKeyOk {key : Text} (h : envKeyOk key = true) : '=' ∉ key := by
  intro hmem
  simp only [envKeyOk, Bool.and_eq_true] at h
  have heq := List.all_eq_true.1 h.1.2 _ hmem
  revert heq
  decide

section Vars

variable {manifest : Manifest} (name : Text)

theorem not_mem_varsOf (h : Admitted manifest) :
    ∀ e ∈ (varsOf name manifest).entries, '=' ∉ e.1 := by
  rintro ⟨k, v⟩ he
  rcases List.mem_append.1 (mem_envOf (OrdMap.get_eq_some_iff.2 he)) with happ | henv
  · have hkey : k ∈ appVariables :=
      List.mem_map_of_mem (f := Prod.fst) happ
    have hall : ∀ k ∈ appVariables, '=' ∉ k := by decide
    exact hall k hkey
  · exact not_mem_of_envKeyOk (h.env _ henv).1

theorem not_mem_environment (h : Admitted manifest) : ∀ e ∈ environment manifest, '=' ∉ e.1 := by
  have hkeys : '=' ∉ "PATH".toList ∧ '=' ∉ "HOME".toList := by decide
  simp only [environment, List.forall_mem_cons]
  exact ⟨hkeys.1, hkeys.2, not_mem_varsOf _ h⟩

theorem not_mem_of_nameChar {name : Text} (h : name.all nameChar = true) : '=' ∉ name := by
  intro hmem
  have heq := List.all_eq_true.1 h _ hmem
  exact absurd heq (by decide)

theorem not_mem_appDir (h : isAppName name = true) : '=' ∉ appDir name := by
  rw [isAppName, Bool.and_eq_true, isServiceName, Bool.and_eq_true] at h
  have hends : '=' ∉ "/mica/apps/".toList ∧ '=' ∉ "/current".toList := by decide
  intro hmem
  rcases List.mem_append.1 hmem with hmem | hmem
  · rcases List.mem_append.1 hmem with hmem | hmem
    · exact hends.1 hmem
    · exact not_mem_of_nameChar h.2.2 hmem
  · exact hends.2 hmem

end Vars

section Main

variable {lib : Libraries} {m : Systemd.Manager} {init : Init} {manifest : Manifest} {dir : BundleDir}
  {arch : Text} {service : Service} {account : Account} {devices : List Text} {text : Text}

theorem not_mem_of_runsDeclared (h : Admitted manifest)
    (hruns : RunsDeclared m init manifest service account text) :
    ∀ file ∈ service.exec.head?, '=' ∉ file := by
  obtain ⟨file, rest, args, hexec, -, argv, -, rfl, hrun⟩ := hruns
  rw [afterOptions_setprivArgs, envRun_iff (not_mem_environment h)] at hrun
  intro f hf hmem
  obtain rfl : file = f := by simpa [hexec] using hf
  exact hrun (List.mem_append_right _ (List.mem_cons_of_mem _ hmem))

theorem commandLine_unit (h : Admitted manifest) (hservice : service ∈ manifest.services)
    (hunit : unit lib init manifest.name service account devices (varsOf manifest.name manifest) =
      .ok text) :
    ∃ file rest args, service.exec = file :: rest ∧
      rest.mapM (fun arg ↦ expand arg (varsOf manifest.name manifest)) = some args ∧
      commandLine m init text = some ⟨setpriv, setpriv :: (setprivArgs account ++ env :: "-i".toList ::
        ((environment manifest).map pairText ++ (appDir manifest.name ++ '/' :: file) :: args))⟩ := by
  obtain ⟨words, data, hcommand, hwords, hdevices, hdata, -, rfl⟩ := unit_eq_ok hunit
  obtain ⟨d, file, rest, home, args, hdir, hexec, hhome, hargs, rfl⟩ := command_eq_ok hcommand
  rw [varsOf_get_dir _ h, Option.some.injEq] at hdir
  rw [OrdMap.lookup_entries, varsOf_get_data _ h, Option.some.injEq] at hhome
  subst hdir hhome
  have hsound : Sound manifest.name service account devices _ data :=
    { app := quiet_appName h.name
      name := quiet_serviceName (h.services service hservice)
      args := hwords
      capabilities := quiet_capabilities fun w hw ↦
        hwords w (List.mem_cons_of_mem _ (List.mem_append_left _ hw))
      devices := hdevices
      data := hdata }
  refine ⟨file, rest, args, hexec, hargs, ?_⟩
  cases init with
  | systemd => exact commandLine_systemd hsound rfl
  | openrc => exact commandLine_openrc hsound rfl

/-- A unit runs what is declared if and only if the file's name has no equals sign. -/
theorem runsDeclared_iff (hcheck : check lib manifest dir init arch = [])
    (hservice : service ∈ manifest.services)
    (hunit : unit lib init manifest.name service account devices (varsOf manifest.name manifest) =
      .ok text) :
    RunsDeclared m init manifest service account text ↔
    ∀ file ∈ service.exec.head?, '=' ∉ file := by
  have hadmitted := admitted_of_check hcheck
  refine ⟨not_mem_of_runsDeclared hadmitted, fun hfile ↦ ?_⟩
  obtain ⟨file, rest, args, hexec, hargs, hline⟩ := commandLine_unit hadmitted hservice hunit
  refine ⟨file, rest, args, hexec, hargs, _, hline, rfl, ?_⟩
  rw [afterOptions_setprivArgs, envRun_iff (not_mem_environment hadmitted), List.mem_append, not_or]
  refine ⟨not_mem_appDir _ hadmitted.name, fun hmem ↦ ?_⟩
  rcases List.mem_cons.1 hmem with hslash | hmem
  · exact absurd hslash (by decide)
  · exact hfile file (by simp [hexec]) hmem

end Main

theorem unit_oneService {file : String}
    (hcheck : check plainLibraries (oneService file) executables .systemd "arm64".toList = [])
    (hfile : '$' ∉ file.toList) :
    ∃ service ∈ (oneService file).services, service.exec.head? = some file.toList ∧
      ∃ text, unit plainLibraries .systemd (oneService file).name service tunAccount
        ["/dev/net/tun".toList] (varsOf (oneService file).name (oneService file)) = .ok text :=
  ⟨_, List.mem_singleton.2 rfl, rfl, (admitted_of_check hcheck).exists_unit (List.mem_singleton.2 rfl)
    (fun _ hcap ↦ hcap) granted_tun fun _ hhead ↦ Option.some.inj hhead ▸ hfile⟩

def plainManager : Systemd.Manager := ⟨fun _ ↦ none, fun _ ↦ none, fun _ ↦ [], fun _ ↦ none⟩

theorem runsDeclared_tailscaled :
    ∃ service ∈ (oneService "files/tailscaled").services, ∃ text,
      RunsDeclared plainManager .systemd (oneService "files/tailscaled") service tunAccount text := by
  have hcheck : check plainLibraries (oneService "files/tailscaled") executables .systemd
      "arm64".toList = [] := by
    decide
  obtain ⟨service, hservice, hfile, text, hunit⟩ :=
    unit_oneService hcheck (by decide)
  have hplain : '=' ∉ "files/tailscaled".toList := by decide
  refine ⟨service, hservice, text, (runsDeclared_iff hcheck hservice hunit).2 fun file hmem ↦ ?_⟩
  rw [hfile, Option.mem_some_iff] at hmem
  exact hmem ▸ hplain

/-- `env` takes a file whose name has an equals sign for an assignment. -/
theorem not_forall_runsDeclared :
    ¬ ∀ (lib : Libraries) (m : Systemd.Manager) (init : Init) (manifest : Manifest) (dir : BundleDir)
      (arch : Text) (service : Service) (account : Account) (devices : List Text) (text : Text),
      check lib manifest dir init arch = [] → manifest.privileges.user = .app →
      service ∈ manifest.services →
      unit lib init manifest.name service account devices (varsOf manifest.name manifest) = .ok text →
      RunsDeclared m init manifest service account text := by
  intro hall
  have hcheck : check plainLibraries (oneService "files/a=b") executables .systemd
      "arm64".toList = [] := by
    decide
  have hadmitted := admitted_of_check hcheck
  obtain ⟨service, hservice, hfile, text, hunit⟩ := unit_oneService hcheck (by decide)
  have hruns := hall plainLibraries plainManager .systemd _ executables "arm64".toList
    service tunAccount
    _ text hcheck rfl hservice hunit
  have hmem : '=' ∈ "files/a=b".toList := by decide
  exact not_mem_of_runsDeclared hadmitted hruns _ hfile hmem

end MicaCore.Apps
