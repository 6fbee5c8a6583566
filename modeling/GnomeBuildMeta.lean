import GnomeBuildMeta.BootKeys.LoaderKeys
import GnomeBuildMeta.Confext.AnyOrder
import GnomeBuildMeta.Confext.MigratedOverlay
import GnomeBuildMeta.Cve.CommittedFeeds
import GnomeBuildMeta.Cve.Configurations
import GnomeBuildMeta.Cve.EtagCache
import GnomeBuildMeta.InitialScripts.Collect
import GnomeBuildMeta.Initramfs.Dependable
import GnomeBuildMeta.Initramfs.LinkHops
import GnomeBuildMeta.Initramfs.Lookups
import GnomeBuildMeta.Initramfs.ModuleInfo
import GnomeBuildMeta.Initramfs.ParentsFirst
import GnomeBuildMeta.Initramfs.ParsedUnits
import GnomeBuildMeta.Initramfs.UnitDependencies
import GnomeBuildMeta.Installer.DiskList
import GnomeBuildMeta.Installer.FrontEndRun
import GnomeBuildMeta.Installer.LiveInstall
import GnomeBuildMeta.Installer.MarkerPath
import GnomeBuildMeta.Installer.Passphrase
import GnomeBuildMeta.Installer.RecoveryKey
import GnomeBuildMeta.Layer.DirectoryModes
import GnomeBuildMeta.Layer.MinimalDelta
import GnomeBuildMeta.Layer.SafeCreations
import GnomeBuildMeta.Layer.StackedLayers
import GnomeBuildMeta.Live.Parameters
import GnomeBuildMeta.Mimeapps.BotComment
import GnomeBuildMeta.Mimeapps.Overridden
import GnomeBuildMeta.Perms.Fields
import GnomeBuildMeta.Perms.PlainNames
import GnomeBuildMeta.PhoneTest.OneCall
import GnomeBuildMeta.Publish.S3ImageRun
import GnomeBuildMeta.Publish.SysupdateRun
import GnomeBuildMeta.SecureVm.StateRuns
import GnomeBuildMeta.SecureVm.Type11
import GnomeBuildMeta.UpdateRefs.Composited
import GnomeBuildMeta.Verity.Transaction
import GnomeBuildMeta.Versions.Increasing
import GnomeBuildMeta.Zswap.PlainEntries
import GnomeBuildMeta.Zswap.SetupRestarts
import GnomeBuildMeta.Zswap.UnitNames
import GnomeBuildMeta.Zswap.WantedUnits
