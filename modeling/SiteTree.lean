import SiteTree.Main
import SiteTree.Proofs.Build.OutputRoot
import SiteTree.Proofs.Build.Sources
import SiteTree.Proofs.Build.PreviousOutput
import SiteTree.Proofs.Build.Leftover
import SiteTree.Proofs.Build.Layout
import SiteTree.Proofs.Build.Rivals
import SiteTree.Proofs.Build.Verbatim
import SiteTree.Proofs.Build.Rebuild
import SiteTree.Proofs.Build.Modes
import SiteTree.Proofs.Build.Eligible
import SiteTree.Proofs.Build.InPlace
import SiteTree.Proofs.Build.Again
import SiteTree.Proofs.Build.Ignored
import SiteTree.Proofs.Build.Peopled
import SiteTree.Proofs.Build.Misfit
import SiteTree.Proofs.Walk.AnyOrder
import SiteTree.Proofs.Chain.LevelOrder
import SiteTree.Proofs.Chain.Halting
import SiteTree.Proofs.Asset.Survival
import SiteTree.Proofs.Asset.Stability
import SiteTree.Proofs.Asset.Restamping
import SiteTree.Proofs.Asset.Resolution
import SiteTree.Proofs.Asset.Outcome
import SiteTree.Proofs.Asset.Occurrence
import SiteTree.Proofs.FileSystem.Way
import SiteTree.Proofs.EntryName.Binding
import SiteTree.Proofs.Stylesheet.Rebundle
import SiteTree.Proofs.Page.BlankLine
import SiteTree.Proofs.Settings.Merge
import SiteTree.Proofs.Settings.Lenience
import SiteTree.Proofs.Ignore
import SiteTree.Proofs.Page.Include
import SiteTree.Proofs.Page.Apart
