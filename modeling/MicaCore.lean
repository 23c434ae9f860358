import MicaCore.Deploy.Generation
import MicaCore.Deploy.References
import MicaCore.Deploy.Running
import MicaCore.Deploy.Leftover
import MicaCore.Deploy.Trial
import MicaCore.Api.Redact
import MicaCore.Api.PasswordChange
import MicaCore.Api.Revocation
import MicaCore.Ble.Voiding
import MicaCore.Ble.Provision
import MicaCore.Ble.Verifier
import MicaCore.Bus.Agreement
import MicaCore.Bus.QueueTable
import MicaCore.Bus.Provisioning
import MicaCore.Network.DefaultRoute
import MicaCore.Apps.Exec
import MicaCore.Boot.Verity
import MicaCore.Boot.Ranges
import MicaCore.Boot.FitSaves
import MicaCore.Deploy.Retained
import MicaCore.Settings.Audit
import MicaCore.Boot.ReleaseSpec
import MicaCore.Deploy.VersionOrder
import MicaCore.Deploy.TransferIndex
import MicaCore.Update.AutoReboot
import MicaCore.Boot.Composition
import MicaCore.Boot.Gpt
import MicaCore.Network.Apart
import MicaCore.Network.Buildable
import MicaCore.Settings.PathLaws
import MicaCore.Settings.Subtrees
import MicaCore.Ble.Fragments
import MicaCore.Ble.AttemptsLeft
import MicaCore.Api.LoginPace
import MicaCore.Settings.KeyIdentity
import MicaCore.Api.PresharedKeys
import MicaCore.Apps.Users
import MicaCore.Apps.SeedRuns
import MicaCore.Apps.OwnData
import MicaCore.Reset.Limits
import MicaCore.Ui.Digest
import MicaCore.Ui.Package
import MicaCore.Ui.StartUp
import MicaCore.Ui.Settling
