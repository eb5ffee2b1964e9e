import ClearSigning.Handlers
import ClearSigning.LayoutSound
import ClearSigning.EncoderSound
import ClearSigning.ShapeSound
import ClearSigning.ExtensionSound
import ClearSigning.AgreementSound
import ClearSigning.WalletSound
import ClearSigning.UpgradeSound
import ClearSigning.HexSound
import ClearSigning.SegmentsSound
import ClearSigning.SignersSound
import ClearSigning.PanicSound
import ClearSigning.HashingSound
import ClearSigning.RefusalSound
import ClearSigning.HistorySound
import ClearSigning.HonestSound
import ClearSigning.BundleSound
