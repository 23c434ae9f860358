import MicaCore.Apps.Manifest
import MicaCore.Shell.Words
import MicaCore.Systemd.ExecLine

namespace MicaCore.Apps

open Data

def setpriv : Text := "/usr/bin/setpriv".toList

def env : Text := "/usr/bin/env".toList

def path : Text := "/usr/local/sbin:/usr/local/bin:/usr/sbin:/usr/bin:/sbin:/bin".toList

def pairText (e : Text × Text) : Text := e.1 ++ '=' :: e.2

def envArgs (file : Text) (vars : List (Text × Text)) : Except Text (List Text) := do
  let home ← orError "APP_DATA".toList (vars.lookup "APP_DATA".toList)
  pure ([env, "-i".toList, "PATH=".toList ++ path, "HOME=".toList ++ home] ++
    vars.map pairText ++ [file])

structure Account where
  uid : ℕ
  groups : List ℕ
  capabilities : List Text
  deriving DecidableEq

def trimCap : Text → Text
  | 'C' :: 'A' :: 'P' :: '_' :: t => trimCap t
  | t => t

def capArg (cap : Text) : Text := '+' :: (trimCap cap).map Char.toLower

def setprivArgs (account : Account) : List Text :=
  let caps := join [','] ("-all".toList :: account.capabilities.map capArg)
  let groups :=
    if account.groups.isEmpty then "--clear-groups".toList
    else "--groups=".toList ++ join [','] (account.groups.map numeral)
  ["--reuid=".toList ++ numeral account.uid, "--regid=".toList ++ numeral account.uid, groups,
    "--bounding-set=".toList ++ caps, "--inh-caps=".toList ++ caps,
    "--ambient-caps=".toList ++ caps,
    "--no-new-privs".toList, "--".toList]

def special (c : Char) : Bool := quoting c || c == '$' || isControl c

def plain (lib : Libraries) (value : Text) : Except Text Unit :=
  ensure (!value.any special) (lib.debug value ++ " is not plain text".toList)

def expandArg (lib : Libraries) (vars : OrdMap Text Text) (arg : Text) : Except Text Text :=
  orError ("expand ".toList ++ lib.debug arg) (expand arg vars)

def command (lib : Libraries) (service : Service) (account : Account) (vars : OrdMap Text Text) :
    Except Text (List Text) := do
  let dir ← orError "APP_DIR".toList (vars.get "APP_DIR".toList)
  let file ← orError "the service runs nothing".toList service.exec.head?
  let run ← envArgs (dir ++ '/' :: file) vars.entries
  let args ← service.exec.tail.mapM (expandArg lib vars)
  pure (setpriv :: (setprivArgs account ++ run ++ args))

def envOf (name : Text) (manifest : Manifest) : List (Text × Text) :=
  [("APP_NAME".toList, name), ("APP_VERSION".toList, manifest.version),
    ("APP_DIR".toList, "/mica/apps/".toList ++ name ++ "/current".toList),
    ("APP_DATA".toList, "/srv/apps/".toList ++ name)] ++ manifest.env.entries

def varsOf (name : Text) (manifest : Manifest) : OrdMap Text Text := .ofList (envOf name manifest)

def notice (app : Text) (account : Account) : Text :=
  "# Written by micad for app ".toList ++ app ++ ": setpriv runs it as uid ".toList ++
    numeral account.uid ++ ".".toList

section Systemd

open Systemd (Line)

def assign (key : String) (value : Text) : Line := .assign key.toList value

def systemdLines (app : Text) (service : Service) (account : Account) (devices : List Text)
    (args : List Text) (data : Text) : List Line :=
  [.header "Unit".toList,
    assign "Description" (app ++ ": ".toList ++ service.name),
    assign "Wants" "network-online.target".toList,
    assign "After" "network-online.target".toList,
    assign "RequiresMountsFor" ("/mica/apps/".toList ++ app ++ ' ' :: data),
    .gap,
    .header "Service".toList,
    assign "WorkingDirectory" data,
    assign "ExecStart" (join [' '] (args.map fun w ↦ quoted (Systemd.escapePercent w))),
    assign "SyslogIdentifier" service.name,
    assign "Restart" "on-failure".toList,
    assign "RestartSec" "5".toList,
    assign "NoNewPrivileges" "yes".toList,
    assign "ProtectSystem" "strict".toList,
    assign "ReadWritePaths" data,
    assign "PrivateTmp" "yes".toList,
    assign "ProtectHome" "yes".toList,
    assign "ProtectKernelTunables" "yes".toList,
    assign "ProtectKernelModules" "yes".toList,
    assign "ProtectControlGroups" "yes".toList,
    assign "RestrictSUIDSGID" "yes".toList,
    assign "CapabilityBoundingSet" (join [' '] (["CAP_SETUID".toList, "CAP_SETGID".toList,
      "CAP_SETPCAP".toList] ++ account.capabilities)),
    assign "DevicePolicy" "closed".toList] ++
  (devices.map fun device ↦ assign "DeviceAllow" (device ++ " rw".toList)) ++
  [.gap, .header "Install".toList, assign "WantedBy" "multi-user.target".toList]

end Systemd

def openrcText (app : Text) (service : Service) (account : Account) (args : List Text)
    (data : Text) :
    Text :=
  Shell.unlines
    ["#!/sbin/openrc-run".toList,
      notice app account,
      [],
      Shell.assignQuoted "description".toList (app ++ ": ".toList ++ service.name),
      Shell.assignBare "supervisor".toList "supervise-daemon".toList,
      Shell.assignBare "command".toList setpriv,
      Shell.assignQuoted "command_args".toList (join [' '] (args.tail.map Shell.singleQuoted)),
      Shell.assignQuoted "supervise_daemon_args".toList
        ("--chdir ".toList ++ Shell.singleQuoted data),
      [],
      "depend() \x7b".toList,
      "\tneed mica-mounts".toList,
      "\tafter net".toList,
      "\x7d".toList]

def unitText (init : Init) (app : Text) (service : Service) (account : Account)
    (devices args : List Text) (data : Text) : Text :=
  match init with
  | .systemd =>
    notice app account ++ '\n' :: Systemd.file (systemdLines app service account devices args data)
  | .openrc => openrcText app service account args data

def unit (lib : Libraries) (init : Init) (app : Text) (service : Service) (account : Account)
    (devices : List Text) (vars : OrdMap Text Text) : Except Text Text := do
  let args ← command lib service account vars
  forM (args ++ vars.keys ++ vars.values ++ devices) (plain lib)
  let data ← orError "APP_DATA".toList (vars.get "APP_DATA".toList)
  pure (unitText init app service account devices args data)

def Quiet (t : Text) : Prop := ∀ c ∈ t, special c = false

instance (t : Text) : Decidable (Quiet t) :=
  decidable_of_iff (t.all (fun c ↦ !special c) = true) (by simp [Quiet])

variable {c : Char}

theorem special_of_alphanumeric (h : asciiAlphanumeric c = true) : special c = false := by
  by_contra hspecial
  simp only [Bool.not_eq_false, special, quoting, isControl, Bool.or_eq_true, beq_iff_eq,
    Bool.and_eq_true, decide_eq_true_eq] at hspecial
  have hrange : 48 ≤ c.toNat ∧ c.toNat ≤ 122 := by
    simp only [asciiAlphanumeric, asciiAlphabetic, asciiLower, asciiDigit, Bool.or_eq_true,
      Bool.and_eq_true, decide_eq_true_eq, Char.le_def, UInt32.le_iff_toNat_le] at h
    change ((97 ≤ c.toNat ∧ c.toNat ≤ 122) ∨ 65 ≤ c.toNat ∧ c.toNat ≤ 90) ∨ 48 ≤ c.toNat ∧
      c.toNat ≤ 57 at h
    omega
  rcases hspecial with ((((rfl | rfl) | rfl) | rfl) | rfl) | hctl
  · revert h; decide
  · revert h; decide
  · revert h; decide
  · revert h; decide
  · revert h; decide
  · omega

theorem special_of_nameChar (h : nameChar c = true) : special c = false := by
  simp only [nameChar, Bool.or_eq_true, beq_iff_eq] at h
  rcases h with (h | h) | rfl
  · exact special_of_alphanumeric (by simp [asciiAlphanumeric, asciiAlphabetic, h])
  · exact special_of_alphanumeric (by simp [asciiAlphanumeric, h])
  · decide

theorem nameChar_of_isDigit (h : c.isDigit = true) : nameChar c = true := by
  have hdigit : asciiDigit c = true := by
    simpa [asciiDigit, Char.isDigit, Char.le_def] using h
  simp [nameChar, hdigit]

namespace Quiet

variable {t : Text}

theorem append {s : Text} (hs : Quiet s) (ht : Quiet t) : Quiet (s ++ t) := fun c hc ↦
  (List.mem_append.1 hc).elim (hs c) (ht c)

theorem literal {cs : List Char} (h : cs.all (fun c ↦ !special c) = true) :
    Quiet (String.ofList cs).toList := by
  rw [String.toList_ofList]
  exact fun c hc ↦ by simpa using List.all_eq_true.1 h c hc

theorem of_nameChar (h : t.all nameChar = true) : Quiet t := fun c hc ↦
  special_of_nameChar (List.all_eq_true.1 h c hc)

theorem numeral (n : ℕ) : Quiet (numeral n) := fun _ hc ↦
  special_of_nameChar (nameChar_of_isDigit (isDigit_of_mem_numeral hc))

theorem not_mem (h : Quiet t) {c : Char} (hc : special c = true) : c ∉ t := fun hmem ↦ by
  simp [h c hmem] at hc

theorem calm (h : Quiet t) : Systemd.Calm t := by
  intro c hc
  refine ⟨?_, fun heq ↦ h.not_mem (by decide) (heq ▸ hc)⟩
  by_contra hbreak
  simp only [Bool.not_eq_false, Systemd.lineBreak, Bool.or_eq_true, beq_iff_eq] at hbreak
  rcases hbreak with (rfl | rfl) | rfl
  · exact h.not_mem (by decide) hc
  · exact h.not_mem (by decide) hc
  · exact h.not_mem (by decide) hc

theorem inert (h : Quiet t) : Shell.Inert t := fun c hc ↦
  ⟨fun heq ↦ h.not_mem (by decide) (heq ▸ hc), fun heq ↦ h.not_mem (by decide) (heq ▸ hc),
    fun heq ↦ h.not_mem (by decide) (heq ▸ hc), fun heq ↦ h.not_mem (by decide) (heq ▸ hc)⟩

end Quiet

theorem quiet_serviceName {name : Text} (h : isServiceName name = true) : Quiet name := by
  simp only [isServiceName, Bool.and_eq_true] at h
  exact .of_nameChar h.2

theorem quiet_appName {name : Text} (h : isAppName name = true) : Quiet name := by
  simp only [isAppName, Bool.and_eq_true] at h
  exact quiet_serviceName h.2

theorem of_mem_join {sep : Text} {ts : List Text} (h : c ∈ join sep ts) :
    c ∈ sep ∨ ∃ t ∈ ts, c ∈ t := by
  induction ts with
  | nil => simp [join] at h
  | cons t ts ih =>
    cases ts with
    | nil => exact .inr ⟨t, by simp, by simpa [join] using h⟩
    | cons u ts =>
      have hjoin : join sep (t :: u :: ts) = t ++ sep ++ join sep (u :: ts) := by
        simp [join, List.intercalate]
      rw [hjoin, List.mem_append, List.mem_append] at h
      rcases h with (h | h) | h
      · exact .inr ⟨t, by simp, h⟩
      · exact .inl h
      · exact (ih h).imp_right fun hex ↦ hex.imp fun _ hv ↦ ⟨List.mem_cons_of_mem _ hv.1, hv.2⟩

theorem mem_join {sep : Text} {ts : List Text} {t : Text} (ht : t ∈ ts) (hc : c ∈ t) :
    c ∈ join sep ts := by
  induction ts with
  | nil => simp at ht
  | cons u ts ih =>
    cases ts with
    | nil =>
      obtain rfl : t = u := by simpa using ht
      simpa [join] using hc
    | cons v ts =>
      have hjoin : join sep (u :: v :: ts) = u ++ sep ++ join sep (v :: ts) := by
        simp [join, List.intercalate]
      rw [hjoin, List.mem_append]
      rcases List.mem_cons.1 ht with rfl | ht
      · exact .inl (List.mem_append_left _ hc)
      · exact .inr (ih ht)

theorem mem_trimCap {cap : Text} (h : c ∈ cap) : c ∈ "CAP_".toList ∨ c ∈ trimCap cap := by
  fun_induction trimCap cap with
  | case1 t ih =>
    have hsplit : c ∈ "CAP_".toList ++ t := h
    rcases List.mem_append.1 hsplit with hc | hc
    · exact .inl hc
    · exact ih hc
  | case2 t => exact .inr h

theorem toLower_of_special (h : special c = true) : c.toLower = c := by
  have hnot : ¬ (65 ≤ c.toNat ∧ c.toNat ≤ 90) := by
    intro hupper
    simp only [special, quoting, isControl, Bool.or_eq_true, beq_iff_eq, Bool.and_eq_true,
      decide_eq_true_eq] at h
    rcases h with ((((rfl | rfl) | rfl) | rfl) | rfl) | hctl
    · revert hupper; decide
    · revert hupper; decide
    · revert hupper; decide
    · revert hupper; decide
    · revert hupper; decide
    · omega
  refine dif_neg ?_
  simp only [ge_iff_le, UInt32.le_iff_toNat_le]
  exact hnot

theorem quiet_of_capArg {cap : Text} (h : Quiet (capArg cap)) : Quiet cap := by
  intro c hc
  by_contra hspecial
  rw [Bool.not_eq_false] at hspecial
  rcases mem_trimCap hc with hcap | htrim
  · have hcap' : Quiet "CAP_".toList := by decide
    simp [hcap' c hcap] at hspecial
  · have hmem : c ∈ capArg cap :=
      List.mem_cons_of_mem _ (List.mem_map.2 ⟨c, htrim, toLower_of_special hspecial⟩)
    simp [h c hmem] at hspecial

theorem quiet_capabilities {account : Account} (h : ∀ w ∈ setprivArgs account, Quiet w) :
    ∀ cap ∈ account.capabilities, Quiet cap := by
  intro cap hcap
  refine quiet_of_capArg fun c hc ↦ ?_
  have hset : "--bounding-set=".toList ++
      join [','] ("-all".toList :: account.capabilities.map capArg) ∈ setprivArgs account := by
    simp only [setprivArgs, List.mem_cons, true_or, or_true]
  refine h _ hset c (List.mem_append_right _ (mem_join ?_ hc))
  exact List.mem_cons_of_mem _ (List.mem_map_of_mem hcap)

end MicaCore.Apps
